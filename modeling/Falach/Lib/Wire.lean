import Falach.Lib.Loops
import Falach.Lib.Sealing
import Mathlib.Algebra.Ring.Nat
/-!
# Numbers and records in bytes

Little-endian numbers of a fixed width, slices that may lie outside of what there is, and records of a tag, a length in
four bytes and as many bytes as that. A reader goes over the records and is a fold over what was written.
-/

universe u v

namespace Wire

variable {ε : Type u} {σ : Type v} {bytes rest body : Octets} {tag : UInt8}

/-! ## Numbers -/

/-- The number in `width` bytes, the lowest first; what does not fit is cut off. -/
def leBytes : Nat → Nat → Octets
  | 0, _ => []
  | width + 1, n => UInt8.ofNat n :: leBytes width (n / 256)

/-- The number in the bytes. -/
def ofLe : Octets → Nat
  | [] => 0
  | b :: bytes => b.toNat + 256 * ofLe bytes

@[simp] theorem length_leBytes (width n : Nat) : (leBytes width n).length = width := by
  induction width generalizing n with
  | zero => rfl
  | succ width ih => rw [leBytes, List.length_cons, ih]

theorem ofLe_leBytes_mod (width n : Nat) : ofLe (leBytes width n) = n % 256 ^ width := by
  induction width generalizing n with
  | zero => rw [Nat.pow_zero, Nat.mod_one]; rfl
  | succ width ih =>
    have hlow : (UInt8.ofNat n).toNat = n % 256 := rfl
    rw [leBytes, ofLe, hlow, ih, Nat.pow_succ', Nat.mod_mul]

/-- A number that fits is read back. -/
theorem ofLe_leBytes {width n : Nat} (h : n < 256 ^ width) : ofLe (leBytes width n) = n := by
  rw [ofLe_leBytes_mod, Nat.mod_eq_of_lt h]

theorem ofLe_lt (bytes : Octets) : ofLe bytes < 256 ^ bytes.length := by
  induction bytes with
  | nil => exact Nat.one_pos
  | cons b bytes ih =>
    have hb := b.toNat_lt
    rw [ofLe, List.length_cons, Nat.pow_succ']
    omega

/-- Bytes are those of the number in them. -/
theorem leBytes_ofLe (bytes : Octets) : leBytes bytes.length (ofLe bytes) = bytes := by
  induction bytes with
  | nil => rfl
  | cons b bytes ih =>
    have hb := b.toNat_lt
    have hlow : UInt8.ofNat (b.toNat + 256 * ofLe bytes) = b := by
      refine UInt8.toNat_inj.1 ?_
      change (b.toNat + 256 * ofLe bytes) % 256 = b.toNat
      omega
    have hhigh : (b.toNat + 256 * ofLe bytes) / 256 = ofLe bytes := by omega
    rw [ofLe, List.length_cons, leBytes, hlow, hhigh, ih]

theorem leBytes_injective {width n m : Nat} (hn : n < 256 ^ width) (hm : m < 256 ^ width)
    (h : leBytes width n = leBytes width m) : n = m := by
  rw [← ofLe_leBytes hn, ← ofLe_leBytes hm, h]

/-! ## Slices -/

/-- The first `n` bytes and the rest, if there are as many. -/
def splitExact (n : Nat) (bytes : Octets) : Option (Octets × Octets) :=
  if n ≤ bytes.length then some (bytes.take n, bytes.drop n) else none

theorem splitExact_append {n : Nat} (h : body.length = n) : splitExact n (body ++ rest) = some (body, rest) := by
  have hle : n ≤ (body ++ rest).length := by
    rw [List.length_append]
    omega
  rw [splitExact, if_pos hle, List.take_left' h, List.drop_left' h]

theorem splitExact_eq_some_iff {n : Nat} : splitExact n bytes = some (body, rest) ↔
    bytes = body ++ rest ∧ body.length = n := by
  constructor
  · intro h
    obtain ⟨hle, heq⟩ := Option.ite_none_right_eq_some.1 h
    obtain ⟨rfl, rfl⟩ := Prod.mk.inj (Option.some.inj heq)
    exact ⟨(List.take_append_drop n bytes).symm, List.length_take_of_le hle⟩
  · rintro ⟨rfl, hlen⟩
    exact splitExact_append hlen

/-! ## Records -/

/-- Bytes with their length before them. -/
def withLen (body : Octets) : Octets := leBytes 4 body.length ++ body

/-- Bytes with their length before them are taken off. -/
def takeWithLen (bytes : Octets) : Option (Octets × Octets) := do
  let (size, rest) ← splitExact 4 bytes
  splitExact (ofLe size) rest

theorem takeWithLen_withLen (h : body.length < 2 ^ 32) : takeWithLen (withLen body ++ rest) = some (body, rest) := by
  have hsize : ofLe (leBytes 4 body.length) = body.length := ofLe_leBytes h
  rw [takeWithLen, withLen, List.append_assoc, splitExact_append (length_leBytes 4 _), Option.bind_eq_bind,
    Option.bind_some]
  dsimp only
  rw [hsize, splitExact_append rfl]

def record (tag : UInt8) (body : Octets) : Octets := tag :: withLen body

/-- The first record. -/
def nextRecord : Octets → Option (UInt8 × Octets × Octets)
  | [] => none
  | tag :: bytes => (takeWithLen bytes).map fun x => (tag, x)

theorem nextRecord_record (h : body.length < 2 ^ 32) : nextRecord (record tag body ++ rest) = some (tag, body, rest) := by
  rw [record, List.cons_append, nextRecord, takeWithLen_withLen h, Option.map_some]

/-- The records up to one with the tag `stop` are gone over. A record that is not whole ends it with `eof`. The first
argument bounds the number of the records. -/
def readRecords (eof : ε) (stop : UInt8) (step : σ → UInt8 → Octets → Except ε σ) : Nat → σ → Octets →
    Except ε (σ × Octets)
  | 0, _, _ => .error eof
  | n + 1, s, bytes =>
    match nextRecord bytes with
    | none => .error eof
    | some (tag, body, rest) =>
      if tag = stop then .ok (s, rest)
      else (step s tag body).bind fun s => readRecords eof stop step n s rest

/-- The records, and the one that ends them. -/
def writeRecords (stop : UInt8) (records : List (UInt8 × Octets)) : Octets :=
  (records.flatMap fun r => record r.1 r.2) ++ record stop []

variable {eof : ε} {stop : UInt8} {step : σ → UInt8 → Octets → Except ε σ} {records : List (UInt8 × Octets)}

theorem readRecords_stop (n : Nat) (s : σ) :
    readRecords eof stop step (n + 1) s (record stop [] ++ rest) = .ok (s, rest) := by
  have hnone : ([] : Octets).length < 2 ^ 32 := Nat.two_pow_pos 32
  rw [readRecords, nextRecord_record hnone]
  exact if_pos rfl

theorem nextRecord_suffix (h : nextRecord bytes = some (tag, body, rest)) : rest <:+ bytes := by
  cases bytes with
  | nil => cases h
  | cons t bytes =>
    obtain ⟨parts, htake, heq⟩ := Option.map_eq_some_iff.1 h
    obtain ⟨-, rfl⟩ := Prod.mk.inj heq
    obtain ⟨⟨size, afterSize⟩, hsize, hbody⟩ := Option.bind_eq_some_iff.1 htake
    obtain ⟨rfl, -⟩ := splitExact_eq_some_iff.1 hsize
    obtain ⟨rfl, -⟩ := splitExact_eq_some_iff.1 hbody
    exact (List.suffix_append body rest).trans ((List.suffix_append size _).trans (List.suffix_cons t _))

theorem readRecords_suffix {n : Nat} {s t : σ} (h : readRecords eof stop step n s bytes = .ok (t, rest)) :
    rest <:+ bytes := by
  induction n generalizing s bytes with
  | zero => cases h
  | succ n ih =>
    rw [readRecords] at h
    split at h
    · cases h
    rename_i hnext
    split at h
    · cases h
      exact nextRecord_suffix hnext
    · obtain ⟨u, -, h⟩ : ∃ u, _ = Except.ok u ∧ _ := Loop.bind_ok.1 h
      exact (ih h).trans (nextRecord_suffix hnext)

/-- Reading what was written is a fold over the records. -/
theorem readRecords_writeRecords {n : Nat} (hn : records.length < n) (htag : ∀ r ∈ records, r.1 ≠ stop)
    (hlen : ∀ r ∈ records, r.2.length < 2 ^ 32) (s : σ) :
    readRecords eof stop step n s (writeRecords stop records ++ rest) =
      (records.foldlM (fun s r => step s r.1 r.2) s).map fun s => (s, rest) := by
  induction records generalizing n s with
  | nil =>
    obtain ⟨n, rfl⟩ := Nat.exists_eq_succ_of_ne_zero (Nat.ne_of_gt hn)
    exact readRecords_stop n s
  | cons r records ih =>
    obtain ⟨n, rfl⟩ := Nat.exists_eq_succ_of_ne_zero (Nat.ne_of_gt (Nat.zero_lt_of_lt hn))
    obtain ⟨hr, htag⟩ := List.forall_mem_cons.1 htag
    obtain ⟨hrlen, hlen⟩ := List.forall_mem_cons.1 hlen
    have hbytes : writeRecords stop (r :: records) ++ rest =
        record r.1 r.2 ++ (writeRecords stop records ++ rest) := by
      simp only [writeRecords, List.flatMap_cons, List.append_assoc]
    rw [hbytes, readRecords, nextRecord_record hrlen]
    dsimp only
    rw [if_neg hr, List.foldlM_cons]
    cases hstep : step s r.1 r.2 with
    | error e => rfl
    | ok t => exact ih (Nat.lt_of_succ_lt_succ hn) htag hlen t

theorem length_body_le {r : UInt8 × Octets} (h : r ∈ records) : r.2.length ≤ (writeRecords stop records).length := by
  have hmem : record r.1 r.2 ∈ records.map fun r => record r.1 r.2 := List.mem_map_of_mem h
  have hle := (List.sublist_flatten_of_mem hmem).length_le
  rw [← List.flatMap_def, record, List.length_cons, withLen, List.length_append, length_leBytes] at hle
  rw [writeRecords, List.length_append]
  omega

theorem length_records_lt : records.length < (writeRecords stop records).length := by
  induction records with
  | nil => exact Nat.succ_pos _
  | cons r records ih =>
    have hone : 1 ≤ (record r.1 r.2).length := Nat.succ_le_succ (Nat.zero_le _)
    simp only [writeRecords, List.flatMap_cons, List.length_append, List.length_cons] at ih ⊢
    omega

end Wire
