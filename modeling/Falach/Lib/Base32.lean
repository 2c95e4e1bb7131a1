import Falach.Lib.Percent
import Mathlib.Tactic.IntervalCases
/-!
# Base32

The encoding of RFC 4648: five bytes are written as eight digits of five bits. The last group is cut to the digits that
its bytes reach into, and is filled up with `=` when padding is wanted.
-/

namespace Base32

def rfc4648 : Text := "ABCDEFGHIJKLMNOPQRSTUVWXYZ234567".toList

/-- The digit for five bits. -/
def digit (n : UInt8) : Char := rfc4648.getD n.toNat 'A'

/-- The five bits that a digit stands for; padding stands for zeros. -/
def inverse (padding : Bool) (c : Char) : Option UInt8 :=
  if '2' ≤ c ∧ c ≤ '7' then some (UInt8.ofNat (c.toNat - '2'.toNat + 26))
  else if 'A' ≤ c ∧ c ≤ 'Z' then some (UInt8.ofNat (c.toNat - 'A'.toNat))
  else if padding ∧ c = '=' then some 0
  else none

/-- Five bytes in groups of five bits. -/
def split (b₀ b₁ b₂ b₃ b₄ : UInt8) : List UInt8 :=
  [(b₀ &&& 0xF8) >>> 3, ((b₀ &&& 0x07) <<< 2) ||| ((b₁ &&& 0xC0) >>> 6), (b₁ &&& 0x3E) >>> 1,
    ((b₁ &&& 0x01) <<< 4) ||| ((b₂ &&& 0xF0) >>> 4), ((b₂ &&& 0x0F) <<< 1) ||| (b₃ >>> 7), (b₃ &&& 0x7C) >>> 2,
    ((b₃ &&& 0x03) <<< 3) ||| ((b₄ &&& 0xE0) >>> 5), b₄ &&& 0x1F]

/-- The bytes of eight groups of five bits. -/
def join (v₀ v₁ v₂ v₃ v₄ v₅ v₆ v₇ : UInt8) : List UInt8 :=
  [(v₀ <<< 3) ||| (v₁ >>> 2), (v₁ <<< 6) ||| (v₂ <<< 1) ||| (v₃ >>> 4), (v₃ <<< 4) ||| (v₄ >>> 1),
    (v₄ <<< 7) ||| (v₅ <<< 2) ||| (v₆ >>> 3), (v₆ <<< 5) ||| v₇]

/-- All the bytes, the last chunk filled up with zeros. -/
def splitChunks : List UInt8 → List UInt8
  | b₀ :: b₁ :: b₂ :: b₃ :: b₄ :: data => split b₀ b₁ b₂ b₃ b₄ ++ splitChunks data
  | [] => []
  | data => split (data.getD 0 0) (data.getD 1 0) (data.getD 2 0) (data.getD 3 0) 0

def joinChunks : List UInt8 → List UInt8
  | v₀ :: v₁ :: v₂ :: v₃ :: v₄ :: v₅ :: v₆ :: v₇ :: values => join v₀ v₁ v₂ v₃ v₄ v₅ v₆ v₇ ++ joinChunks values
  | [] => []
  | values => join (values.getD 0 0) (values.getD 1 0) (values.getD 2 0) (values.getD 3 0) (values.getD 4 0)
      (values.getD 5 0) (values.getD 6 0) 0

/-- The digits of the last chunk that hold no bit of `length` bytes. -/
def numExtra (length : Nat) : Nat := if length % 5 = 0 then 0 else 8 - (length % 5 * 8 + 4) / 5

/-- The bytes in groups of five bits, without the groups that hold no bit of them. -/
def groups (data : List UInt8) : List UInt8 :=
  (splitChunks data).take ((splitChunks data).length - numExtra data.length)

/-- The encoding without padding. -/
def encode (data : List UInt8) : Text := (groups data).map digit

/-- How many of the characters are no padding; at most six can be. -/
def unpaddedLength (data : Text) : Nat := data.length - ((data.reverse.take 6).takeWhile fun c => c = '=').length

def decode (padding : Bool) (data : Text) : Option (List UInt8) :=
  if data.any fun c => 128 ≤ c.toNat then none
  else (data.mapM (inverse padding)).map fun values => (joinChunks values).take (unpaddedLength data * 5 / 8)

variable {padding : Bool} {b₀ b₁ b₂ b₃ b₄ n : UInt8} {data values : List UInt8}

/-! ## Chunks -/

/-- Bytes are equal when their bits are. -/
theorem eq_of_bits {a b : UInt8} (h : ∀ i < 8, a.toBitVec.getLsbD i = b.toBitVec.getLsbD i) : a = b :=
  UInt8.eq_of_toBitVec_eq (BitVec.eq_of_getLsbD_eq h)

theorem join_split (b₀ b₁ b₂ b₃ b₄ : UInt8) :
    join ((b₀ &&& 0xF8) >>> 3) (((b₀ &&& 0x07) <<< 2) ||| ((b₁ &&& 0xC0) >>> 6))
    ((b₁ &&& 0x3E) >>> 1) (((b₁ &&& 0x01) <<< 4) ||| ((b₂ &&& 0xF0) >>> 4)) (((b₂ &&& 0x0F) <<< 1) ||| (b₃ >>> 7))
    ((b₃ &&& 0x7C) >>> 2) (((b₃ &&& 0x03) <<< 3) ||| ((b₄ &&& 0xE0) >>> 5)) (b₄ &&& 0x1F) = [b₀, b₁, b₂, b₃, b₄] := by
  simp only [join, List.cons.injEq, and_true]
  refine ⟨?_, ?_, ?_, ?_, ?_⟩
  all_goals
    apply eq_of_bits
    intro i hi
    interval_cases i <;> simp

/-- The groups have five bits. -/
theorem mem_split {v : UInt8} (h : v ∈ split b₀ b₁ b₂ b₃ b₄) : v &&& 0x1F = v := by
  simp only [split, List.mem_cons, List.not_mem_nil, or_false] at h
  rcases h with rfl | rfl | rfl | rfl | rfl | rfl | rfl | rfl
  all_goals
    apply eq_of_bits
    intro i hi
    interval_cases i <;> simp

theorem joinChunks_split : joinChunks (split b₀ b₁ b₂ b₃ b₄ ++ values) =
    b₀ :: b₁ :: b₂ :: b₃ :: b₄ :: joinChunks values :=
  congrArg (· ++ joinChunks values) (join_split b₀ b₁ b₂ b₃ b₄)

theorem length_splitChunks (data : List UInt8) : (splitChunks data).length = (data.length + 4) / 5 * 8 := by
  induction data using splitChunks.induct with
  | case1 b₀ b₁ b₂ b₃ b₄ data ih =>
    have hchunk : (split b₀ b₁ b₂ b₃ b₄).length = 8 := rfl
    rw [splitChunks, List.length_append, hchunk, ih]
    simp only [List.length_cons]
    omega
  | case2 => rfl
  | case3 data hlong hne =>
    rcases data with _ | ⟨b₀, _ | ⟨b₁, _ | ⟨b₂, _ | ⟨b₃, _ | ⟨b₄, data⟩⟩⟩⟩⟩
    · exact absurd rfl hne
    · simp [splitChunks, split]
    · simp [splitChunks, split]
    · simp [splitChunks, split]
    · simp [splitChunks, split]
    · exact absurd rfl (hlong b₀ b₁ b₂ b₃ b₄ data)

theorem length_groups (data : List UInt8) : (groups data).length = (data.length * 8 + 4) / 5 := by
  rw [groups, List.length_take, length_splitChunks, numExtra]
  obtain ⟨q, r, hr, hlength⟩ : ∃ q r, r < 5 ∧ data.length = 5 * q + r :=
    ⟨_, _, Nat.mod_lt _ (by omega), (Nat.div_add_mod _ 5).symm⟩
  rw [hlength, Nat.mul_add_mod, Nat.mod_eq_of_lt hr]
  interval_cases r <;> split <;> omega

theorem groups_cons : groups (b₀ :: b₁ :: b₂ :: b₃ :: b₄ :: data) = split b₀ b₁ b₂ b₃ b₄ ++ groups data := by
  have hextra : numExtra (b₀ :: b₁ :: b₂ :: b₃ :: b₄ :: data).length = numExtra data.length := by
    simp only [numExtra, List.length_cons, Nat.add_assoc, Nat.add_mod_right]
  have hchunk : (split b₀ b₁ b₂ b₃ b₄).length = 8 := rfl
  have hless : numExtra data.length ≤ (splitChunks data).length := by
    rw [length_splitChunks, numExtra]
    split <;> omega
  rw [groups, groups, hextra, splitChunks, List.length_append, hchunk, Nat.add_sub_assoc hless, ← hchunk]
  exact List.take_length_add_append _

/-- The bytes come back, with zeros behind the ones of a chunk that is not full. -/
theorem joinChunks_groups (data : List UInt8) : (joinChunks (groups data)).take data.length = data := by
  induction data using splitChunks.induct with
  | case1 b₀ b₁ b₂ b₃ b₄ data ih =>
    rw [groups_cons, joinChunks_split]
    simp only [List.length_cons, List.take_succ_cons, ih]
  | case2 => rfl
  | case3 data hlong hne =>
    rcases data with _ | ⟨b₀, _ | ⟨b₁, _ | ⟨b₂, _ | ⟨b₃, _ | ⟨b₄, data⟩⟩⟩⟩⟩
    · exact absurd rfl hne
    · have hgroups : groups [b₀] = (split b₀ 0 0 0 0).take 2 := by simp [groups, splitChunks, split, numExtra]
      rw [hgroups]
      exact congrArg (List.take 1) (join_split b₀ 0 0 0 0)
    · have hgroups : groups [b₀, b₁] = (split b₀ b₁ 0 0 0).take 4 := by simp [groups, splitChunks, split, numExtra]
      rw [hgroups]
      exact congrArg (List.take 2) (join_split b₀ b₁ 0 0 0)
    · have hgroups : groups [b₀, b₁, b₂] = (split b₀ b₁ b₂ 0 0).take 5 := by simp [groups, splitChunks, split, numExtra]
      rw [hgroups]
      exact congrArg (List.take 3) (join_split b₀ b₁ b₂ 0 0)
    · have hgroups : groups [b₀, b₁, b₂, b₃] = (split b₀ b₁ b₂ b₃ 0).take 7 := by
        simp [groups, splitChunks, split, numExtra]
      rw [hgroups]
      exact congrArg (List.take 4) (join_split b₀ b₁ b₂ b₃ 0)
    · exact absurd rfl (hlong b₀ b₁ b₂ b₃ b₄ data)

/-! ## Digits -/

theorem mem_groups {v : UInt8} (h : v ∈ groups data) : v &&& 0x1F = v := by
  have hv : v ∈ splitChunks data := List.mem_of_mem_take h
  clear h
  induction data using splitChunks.induct with
  | case1 b₀ b₁ b₂ b₃ b₄ data ih =>
    rcases List.mem_append.1 hv with hv | hv
    · exact mem_split hv
    · exact ih hv
  | case2 => cases hv
  | case3 data hlong hne =>
    rw [splitChunks] at hv
    · exact mem_split hv
    · exact hlong
    · exact hne

theorem inverse_digit (hn : n &&& 0x1F = n) : inverse padding (digit n) = some n := by
  revert hn
  refine Percent.forall_byte (P := fun n => n &&& 0x1F = n → inverse padding (digit n) = some n) ?_ n
  cases padding <;> decide +kernel

theorem digit_mem (n : UInt8) : digit n ∈ rfc4648 := by
  refine Percent.forall_byte (P := fun n => digit n ∈ rfc4648) ?_ n
  decide +kernel

theorem mem_encode {c : Char} (h : c ∈ encode data) : c ∈ rfc4648 := by
  obtain ⟨n, -, rfl⟩ := List.mem_map.1 h
  exact digit_mem n

theorem decode_encode (data : List UInt8) : decode padding (encode data) = some data := by
  have hascii : ¬ (encode data).any (fun c => 128 ≤ c.toNat) = true := by
    intro hany
    obtain ⟨c, hc, hbig⟩ := List.any_eq_true.1 hany
    have hbig : 128 ≤ c.toNat := of_decide_eq_true hbig
    have hsmall : rfc4648.all (fun c => c.toNat < 128) = true := by decide
    have hc : c.toNat < 128 := of_decide_eq_true (List.all_eq_true.1 hsmall c (mem_encode hc))
    omega
  have hdigits : (encode data).mapM (inverse padding) = some (groups data) := by
    have each : ∀ values : List UInt8, (∀ v ∈ values, v &&& 0x1F = v) →
        (values.map digit).mapM (inverse padding) = some values := by
      intro values hvalues
      induction values with
      | nil => rfl
      | cons v values ih =>
        obtain ⟨hv, hrest⟩ := List.forall_mem_cons.1 hvalues
        rw [List.map_cons, List.mapM_cons, inverse_digit hv, ih hrest]
        rfl
    exact each _ fun v => mem_groups
  have hlength : unpaddedLength (encode data) = (groups data).length := by
    have hnone : ((encode data).reverse.take 6).takeWhile (fun c => c = '=') = [] := by
      rw [List.takeWhile_eq_nil_iff]
      intro hpos
      have hmem : ((encode data).reverse.take 6)[0] ∈ rfc4648 :=
        mem_encode (List.mem_reverse.1 (List.mem_of_mem_take (List.getElem_mem hpos)))
      have hplain : '=' ∉ rfc4648 := by decide
      have hne : ((encode data).reverse.take 6)[0] ≠ '=' := fun h => hplain (h ▸ hmem)
      simpa using hne
    rw [unpaddedLength, hnone, encode, List.length_map]
    rfl
  rw [decode, if_neg hascii, hdigits, hlength, length_groups, Option.map_some]
  have hbytes : (data.length * 8 + 4) / 5 * 5 / 8 = data.length := by omega
  rw [hbytes, joinChunks_groups]

end Base32
