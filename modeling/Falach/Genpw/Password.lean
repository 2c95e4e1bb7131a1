import Falach.Genpw.Sampling
import Falach.Lib.Loops
import Mathlib.Algebra.Group.Action.Defs
import Mathlib.Algebra.Order.BigOperators.Group.List
/-!
# Passwords and passphrases

A password has a character of each class that is enabled, is filled up from all of them, and is then shuffled. A
passphrase is words of a list.
-/

namespace Falach

open Keepass ByteCursor

/-! ## Character classes -/

namespace Genpw

def lowercase : String := "abcdefghijklmnopqrstuvwxyz"
def uppercase : String := "ABCDEFGHIJKLMNOPQRSTUVWXYZ"
def digits : String := "0123456789"
def symbols : String := "!@#$%^&*()-_=+[]\x7b\x7d;:,.<>?/~"
def ambiguousChars : String := "0Oo1lI|`"

end Genpw

structure CharSet where
  lowercase : Bool
  uppercase : Bool
  digits : Bool
  symbols : Bool
deriving DecidableEq

def filterAmbiguous (raw : String) (excludeAmbiguous : Bool) : String :=
  if excludeAmbiguous then String.ofList (raw.toList.filter fun c => ! Genpw.ambiguousChars.toList.contains c) else raw

namespace CharSet

variable (c : CharSet) (excludeAmbiguous : Bool)

/-- `CharSet::ALL`. -/
def all : CharSet := ⟨true, true, true, true⟩

/-- `CharSet::NONE`. -/
def none : CharSet := ⟨false, false, false, false⟩

def popcount : Nat := c.lowercase.toNat + c.uppercase.toNat + c.digits.toNat + c.symbols.toNat

/-- The classes, with their names, and whether they are enabled. -/
def classes : List (String × Bool × String) :=
  [("lowercase", c.lowercase, Genpw.lowercase), ("uppercase", c.uppercase, Genpw.uppercase),
    ("digits", c.digits, Genpw.digits), ("symbols", c.symbols, Genpw.symbols)]

def enabledClasses : List (String × String) :=
  (c.classes.filter fun p => p.2.1).map fun p => (p.1, filterAmbiguous p.2.2 excludeAmbiguous)

def alphabet : String := (c.enabledClasses excludeAmbiguous).foldl (fun out p => out ++ p.2) ""

theorem enabledClasses_length : (c.enabledClasses excludeAmbiguous).length = c.popcount := by
  obtain ⟨lowercase, uppercase, digits, symbols⟩ := c
  cases lowercase <;> cases uppercase <;> cases digits <;> cases symbols <;> rfl

/-- No class is empty, with or without the ambiguous characters. -/
theorem enabledClasses_size {p : String × String} (h : p ∈ c.enabledClasses excludeAmbiguous) :
    0 < p.2.toList.length ∧ p.2.toList.length ≤ 27 := by
  obtain ⟨⟨name, on, raw⟩, hmem, rfl⟩ := List.mem_map.1 h
  have raws : [Genpw.lowercase, Genpw.uppercase, Genpw.digits, Genpw.symbols].all (fun raw =>
      [true, false].all fun b => 0 < (filterAmbiguous raw b).toList.length ∧
        (filterAmbiguous raw b).toList.length ≤ 27) = true := by
    decide +kernel
  have hraw : raw ∈ [Genpw.lowercase, Genpw.uppercase, Genpw.digits, Genpw.symbols] := by
    have := List.mem_map_of_mem (f := fun p => p.2.2) (List.mem_of_mem_filter hmem)
    exact this
  have := List.all_eq_true.1 (List.all_eq_true.1 raws raw hraw) excludeAmbiguous (by cases excludeAmbiguous <;> simp)
  simpa using this

theorem alphabet_toList : (c.alphabet excludeAmbiguous).toList =
    ((c.enabledClasses excludeAmbiguous).map fun p => p.2.toList).flatten := by
  have fold : ∀ (ps : List (String × String)) (out : String),
      (ps.foldl (fun out p => out ++ p.2) out).toList = out.toList ++ (ps.map fun p => p.2.toList).flatten := by
    intro ps
    induction ps with
    | nil => exact fun out => (List.append_nil _).symm
    | cons p ps ih =>
      intro out
      rw [List.foldl_cons, ih, String.toList_append, List.append_assoc]
      rfl
  exact (fold _ "").trans (List.nil_append _)

theorem mem_alphabet {ch : Char} : ch ∈ (c.alphabet excludeAmbiguous).toList ↔
    ∃ p ∈ c.enabledClasses excludeAmbiguous, ch ∈ p.2.toList := by
  rw [alphabet_toList]
  simp only [List.mem_flatten, List.mem_map, exists_exists_and_eq_and]

theorem popcount_le : c.popcount ≤ 4 := by
  have h : ∀ b : Bool, b.toNat ≤ 1 := Bool.toNat_le
  have := h c.lowercase
  have := h c.uppercase
  have := h c.digits
  have := h c.symbols
  unfold popcount
  omega

/-- The alphabet has something in it if a class is enabled, and is not too large to draw from. -/
theorem alphabet_size (h : c.popcount ≠ 0) : 0 < (c.alphabet excludeAmbiguous).toList.length ∧
    (c.alphabet excludeAmbiguous).toList.length ≤ u32Max := by
  have hlen := c.enabledClasses_length excludeAmbiguous
  rw [alphabet_toList, List.length_flatten, List.map_map]
  constructor
  · obtain ⟨p, hp⟩ := List.exists_mem_of_length_pos (hlen ▸ Nat.pos_of_ne_zero h)
    have hmem : p.2.toList.length ∈ (c.enabledClasses excludeAmbiguous).map (List.length ∘ fun p => p.2.toList) :=
      List.mem_map.2 ⟨p, hp, rfl⟩
    exact (c.enabledClasses_size excludeAmbiguous hp).1.trans_le (List.le_sum_of_mem hmem)
  · have hmax : ∀ n ∈ (c.enabledClasses excludeAmbiguous).map (List.length ∘ fun p => p.2.toList), n ≤ 27 := by
      intro n hn
      obtain ⟨p, hp, rfl⟩ := List.mem_map.1 hn
      exact (c.enabledClasses_size excludeAmbiguous hp).2
    have hsum := List.sum_le_card_nsmul _ 27 hmax
    rw [List.length_map, hlen, smul_eq_mul] at hsum
    have := c.popcount_le
    unfold u32Max
    omega

end CharSet

/-! ## What a generator does with its draws -/

namespace Genpw

variable {α : Type}

/-- `xs[i]`. -/
def index (xs : List α) (i : Nat) : Gen α :=
  match xs[i]? with
  | some x => return x
  | none => throw .panic

/-- `xs.swap(i, j)`. -/
def swap (xs : List α) (i j : Nat) : Gen (List α) :=
  match Shuffle.swap xs i j with
  | some ys => return ys
  | none => throw .panic

/-- One character of each class. -/
def reserve : List (String × String) → List Char → Gen (List Char)
  | [], out => return out
  | (_, chars) :: rest, out =>
    if chars.toList = [] then throw (.error .alphabetEmpty)
    else do
      let idx ← uniformIndex chars.toList.length
      let x ← index chars.toList idx
      reserve rest (out ++ [x])

/-- So many elements of a list. -/
def fill (xs : List α) : Nat → List α → Gen (List α)
  | 0, out => return out
  | n + 1, out => do
    let idx ← uniformIndex xs.length
    let x ← index xs idx
    fill xs n (out ++ [x])

/-- The places from `i` down to 1. -/
def shuffle : Nat → List α → Gen (List α)
  | 0, out => return out
  | i + 1, out => do
    let j ← uniformIndex (i + 2)
    let out ← swap out (i + 1) j
    shuffle i out

variable {xs out : List α} {i j n : Nat}

theorem index_draws (h : i < xs.length) : Draws 0 (fun x _ => xs[i]? = some x) (index xs i) := by
  unfold index
  rw [List.getElem?_eq_getElem h]
  exact Draws.pure rfl

theorem swap_draws (hi : i < xs.length) (hj : j < xs.length) :
    Draws 0 (fun ys _ => Shuffle.swap xs i j = some ys) (swap xs i j) := by
  unfold swap
  rw [Shuffle.swap_eq hi hj]
  exact Draws.pure rfl

/-- One element of a list. -/
theorem element_draws {β : Type} {f : α → Gen β} {k : Nat} {Q : β → List Nat → Prop} (hpos : 0 < xs.length)
    (hle : xs.length ≤ u32Max)
    (hf : ∀ idx x, idx < xs.length → xs[idx]? = some x → Draws k (fun b ds => Q b (idx :: ds)) (f x)) :
    Draws (k + 1) Q (uniformIndex xs.length >>= fun idx => index xs idx >>= f) := by
  refine (uniformIndex_draws hpos hle).bind_one fun idx hlt => ?_
  exact (index_draws hlt).bind_zero fun x hx => hf idx x hlt hx

theorem reserve_draws {classes : List (String × String)}
    (hsize : ∀ p ∈ classes, 0 < p.2.toList.length ∧ p.2.toList.length ≤ u32Max) (out : List Char) :
    Draws classes.length (fun out' _ => ∃ new, out' = out ++ new ∧ List.Forall₂ (fun x p => x ∈ p.2.toList) new classes)
      (reserve classes out) := by
  induction classes generalizing out with
  | nil => exact Draws.pure ⟨[], (List.append_nil out).symm, .nil⟩
  | cons p rest ih =>
    obtain ⟨name, chars⟩ := p
    obtain ⟨hpos, hle⟩ := hsize _ List.mem_cons_self
    unfold reserve
    rw [if_neg (List.length_pos_iff.1 hpos)]
    refine element_draws hpos hle fun idx x _ hx => ?_
    refine (ih (fun p hp => hsize p (List.mem_cons_of_mem _ hp)) (out ++ [x])).mono ?_
    rintro out' _ ⟨new, rfl, hnew⟩ -
    exact ⟨x :: new, List.append_assoc .., .cons (List.mem_of_getElem? hx) hnew⟩

theorem fill_draws (hpos : 0 < xs.length) (hle : xs.length ≤ u32Max) (n : Nat) (out : List α) :
    Draws n (fun out' draws => ∃ new, out' = out ++ new ∧ (∀ idx ∈ draws, idx < xs.length) ∧
      new.map some = draws.map fun idx => xs[idx]?) (fill xs n out) := by
  induction n generalizing out with
  | zero => exact Draws.pure ⟨[], (List.append_nil out).symm, fun _ h => absurd h List.not_mem_nil, rfl⟩
  | succ n ih =>
    refine element_draws hpos hle fun idx x hlt hx => ?_
    refine (ih (out ++ [x])).mono ?_
    rintro out' ds ⟨new, rfl, hds, hnew⟩ -
    refine ⟨x :: new, List.append_assoc .., List.forall_mem_cons.2 ⟨hlt, hds⟩, ?_⟩
    rw [List.map_cons, List.map_cons, hnew, hx]

theorem shuffle_draws (hi : i ≤ out.length - 1) (hle : out.length ≤ u32Max) :
    Draws i (fun out' draws => Shuffle.InRange i draws ∧ Shuffle.shuffle i draws out = some out') (shuffle i out) := by
  induction i generalizing out with
  | zero => exact Draws.pure ⟨rfl, rfl⟩
  | succ i ih =>
    refine (uniformIndex_draws (Nat.succ_pos _) (by omega)).bind_one fun j hj => ?_
    refine (swap_draws (by omega) (by omega)).bind_zero fun ys hys => ?_
    have hlen := (Shuffle.swap_perm hys).length_eq
    refine (ih (by omega) (by omega)).mono ?_
    rintro out' ds ⟨hrange, hout⟩ -
    refine ⟨⟨Nat.le_of_lt_succ hj, hrange⟩, ?_⟩
    unfold Shuffle.shuffle
    rw [hys]
    exact hout

end Genpw

/-! ## The builders -/

/-- Extra draws in the buffer of a generation. -/
def oversample : Nat := 64

namespace Genpw

def usizeMax : Nat := 2 ^ 64 - 1
def saturatingAdd (a b : Nat) : Nat := min (a + b) usizeMax
def saturatingMul (a b : Nat) : Nat := min (a * b) usizeMax

end Genpw

/-- What a generation from these bytes returns. -/
def returned {α : Type} (m : Gen α) (bytes : Bytes) : Except Stop α :=
  match m (new bytes) with
  | .ok a _ => .ok a
  | .error e _ => .error e

structure PasswordBuilder where
  length : Nat := 20
  classes : CharSet := .all
  excludeAmbiguous : Bool := false

namespace PasswordBuilder

variable (b : PasswordBuilder)

def validate : Except GenError Unit :=
  if b.length = 0 then .error .invalidLength
  else if b.classes.popcount = 0 then .error .noClassesEnabled
  else if b.length < b.classes.popcount then .error (.lengthTooShort b.length b.classes.popcount)
  else .ok ()

/-- What `generate_from_bytes` does with its cursor. -/
def generateFrom : Gen String :=
  match b.validate with
  | .error e => throw (.error e)
  | .ok () =>
    let union := (b.classes.alphabet b.excludeAmbiguous).toList
    if union = [] then throw (.error .alphabetEmpty)
    else do
      let out ← Genpw.reserve (b.classes.enabledClasses b.excludeAmbiguous) []
      let out ← Genpw.fill union (b.length - b.classes.popcount) out
      let out ← Genpw.shuffle (out.length - 1) out
      return String.ofList out

def generateFromBytes (bytes : Bytes) : Except Stop String := returned b.generateFrom bytes

/-- The size of the buffer of `generate`. -/
def needed : Nat := Genpw.saturatingMul (Genpw.saturatingAdd (Genpw.saturatingMul b.length 2) oversample) bytesPerDraw

/-- `generate`, with what fills its buffer. -/
def generate (getrandomFill : Nat → Except GetrandomError Bytes) : Except Stop String :=
  match b.validate with
  | .error e => .error (.error e)
  | .ok () =>
    match getrandomFill b.needed with
    | .error e => .error (.error (.csprng e))
    | .ok bytes => b.generateFromBytes bytes

end PasswordBuilder

structure PassphraseBuilder where
  words : Nat := 6
  separator : String := "-"

def wordlistLen : Nat := 7776

namespace PassphraseBuilder

variable (b : PassphraseBuilder)

def validate : Except GenError Unit := if b.words = 0 then .error .invalidWordCount else .ok ()

/-- What `generate_from_bytes` does with its cursor and the words of the list. -/
def generateFrom (wordlist : List String) : Gen String :=
  match b.validate with
  | .error e => throw (.error e)
  | .ok () => do
    let chosen ← Genpw.fill wordlist b.words []
    return b.separator.intercalate chosen

def needed : Nat := Genpw.saturatingMul (Genpw.saturatingAdd b.words oversample) bytesPerDraw

end PassphraseBuilder

/-! ## Their contract -/

namespace PasswordBuilder

variable {b : PasswordBuilder} {bytes : Bytes} {pw : String}

/-- What a password of this builder is. -/
structure Meets (b : PasswordBuilder) (pw : String) : Prop where
  length : pw.toList.length = b.length
  alphabet : ∀ x ∈ pw.toList, ∃ p ∈ b.classes.enabledClasses b.excludeAmbiguous, x ∈ p.2.toList
  classes : ∀ p ∈ b.classes.enabledClasses b.excludeAmbiguous, ∃ x ∈ pw.toList, x ∈ p.2.toList

theorem validate_ok (h : b.validate = .ok ()) :
    b.length ≠ 0 ∧ b.classes.popcount ≠ 0 ∧ b.classes.popcount ≤ b.length := by
  unfold validate at h
  split at h
  · cases h
  split at h
  · cases h
  split at h
  · cases h
  · exact ⟨‹_›, ‹_›, Nat.le_of_not_lt ‹_›⟩

/-- A password takes an index for each of its characters and one for each place but the first. -/
theorem generateFrom_draws (hvalid : b.validate = .ok ()) (hlen : b.length ≤ u32Max) :
    Draws (2 * b.length - 1) (fun pw _ => b.Meets pw) b.generateFrom := by
  obtain ⟨hne, hclasses, hle⟩ := validate_ok hvalid
  obtain ⟨hpos, hmax⟩ := b.classes.alphabet_size b.excludeAmbiguous hclasses
  have hcount := b.classes.enabledClasses_length b.excludeAmbiguous
  have hsum : 2 * b.length - 1 = b.classes.popcount + (b.length - b.classes.popcount + (b.length - 1 + 0)) := by omega
  unfold generateFrom
  rw [hvalid, hsum]
  dsimp only
  rw [if_neg (List.length_pos_iff.1 hpos), ← hcount]
  refine (Genpw.reserve_draws (fun p hp => ?_) []).bind ?_
  · obtain ⟨hp, hp'⟩ := b.classes.enabledClasses_size b.excludeAmbiguous hp
    exact ⟨hp, hp'.trans (by decide)⟩
  rintro reserved _ ⟨_, rfl, hreserved⟩ -
  rw [hcount]
  refine (Genpw.fill_draws hpos hmax _ reserved).bind ?_
  rintro out ds ⟨filled, rfl, -, hfilled⟩ hds
  have hflen : filled.length = b.length - b.classes.popcount := by
    rw [← hds, ← List.length_map, hfilled, List.length_map]
  have hout : (reserved ++ filled).length = b.length := by
    rw [List.length_append, hreserved.length_eq, hcount, hflen]
    omega
  rw [← hout]
  refine (Genpw.shuffle_draws le_rfl (hout ▸ hlen)).bind ?_
  rintro out _ ⟨-, hshuffle⟩ -
  have hperm := Shuffle.shuffle_perm hshuffle
  refine Draws.pure ⟨?_, fun x hx => ?_, fun p hp => ?_⟩
  · rw [String.toList_ofList, hperm.length_eq, hout]
  · rw [String.toList_ofList] at hx
    rcases List.mem_append.1 (hperm.mem_iff.1 hx) with hx | hx
    · exact Loop.exists_of_forall₂ hreserved hx
    · refine (b.classes.mem_alphabet b.excludeAmbiguous).1 ?_
      have : some x ∈ filled.map some := List.mem_map_of_mem hx
      rw [hfilled] at this
      obtain ⟨idx, -, hget⟩ := List.mem_map.1 this
      exact List.mem_of_getElem? hget
  · rw [String.toList_ofList]
    obtain ⟨x, hx, hmem⟩ := Loop.exists_of_forall₂ hreserved.flip hp
    exact ⟨x, hperm.mem_iff.2 (List.mem_append_left _ hx), hmem⟩

theorem generateFrom_invalid {e : GenError} (h : b.validate = .error e) (s : ByteCursor) :
    b.generateFrom s = .error (.error e) s := by
  unfold generateFrom
  rw [h]
  rfl

/-- What a builder returns: the error of its validation, that the bytes are used up, or a password that meets it. -/
theorem generateFromBytes_contract (hlen : b.length ≤ u32Max) (bytes : Bytes) :
    (∃ e, b.validate = .error e ∧ b.generateFromBytes bytes = .error (.error e)) ∨
    (b.validate = .ok () ∧ (b.generateFromBytes bytes = .error exhausted ∨
      ∃ pw, b.generateFromBytes bytes = .ok pw ∧ b.Meets pw)) := by
  unfold generateFromBytes returned
  cases hvalid : b.validate with
  | error e => exact .inl ⟨e, rfl, by rw [generateFrom_invalid hvalid]⟩
  | ok u =>
    refine .inr ⟨rfl, ?_⟩
    rcases generateFrom_draws hvalid hlen (new bytes) with ⟨pw, t, ds, hm, -, -, hmeets⟩ | ⟨t, ds, hm, -⟩
    · exact .inr ⟨pw, by rw [hm], hmeets⟩
    · exact .inl (by rw [hm])

theorem needed_eq (hlen : b.length ≤ u32Max) : b.needed = bytesPerDraw * (2 * b.length + oversample) := by
  unfold needed Genpw.saturatingMul Genpw.saturatingAdd bytesPerDraw oversample Genpw.usizeMax
  unfold u32Max at hlen
  omega

/-- The buffer of `generate` is used up only after more rejected draws than it has to spare. -/
theorem exhausted_rejected (hlen : b.length ≤ u32Max) (hsize : bytes.length = b.needed) {t : ByteCursor}
    (h : b.generateFrom (new bytes) = .error exhausted t) : oversample < t.rejected := by
  cases hvalid : b.validate with
  | error e =>
    rw [generateFrom_invalid hvalid] at h
    cases h
    unfold validate at hvalid
    split at hvalid
    · cases hvalid
    split at hvalid
    · cases hvalid
    split at hvalid <;> cases hvalid
  | ok u =>
    obtain ⟨hne, -⟩ := validate_ok hvalid
    have hspare : bytes.length = bytesPerDraw * (2 * b.length - 1 + (oversample + 1)) := by
      rw [hsize, needed_eq hlen]
      congr 1
      omega
    exact (Nat.lt_succ_self _).trans ((generateFrom_draws hvalid hlen).rejected hspare h)

end PasswordBuilder

/-- A shuffle puts what is in the places into the order that its draws make of the places. -/
theorem shuffle_order {out out' : List Char} {s t : ByteCursor} (hlen : out.length ≤ u32Max)
    (h : Genpw.shuffle (out.length - 1) out s = .ok out' t) : ∃ draws order, t.accepted = s.accepted ++ draws ∧
      Shuffle.InRange (out.length - 1) draws ∧
      Shuffle.shuffle (out.length - 1) draws (List.range out.length) = some order ∧
      out'.map some = order.map fun place => out[place]? := by
  rcases Genpw.shuffle_draws le_rfl hlen s with ⟨a, u, draws, hm, hdrawn, -, hrange, hout⟩ | ⟨u, draws, hm, -⟩
  · rw [h] at hm
    cases hm
    have hplaces : out.length - 1 ≤ (List.range out.length).length - 1 := by rw [List.length_range]
    obtain ⟨order, horder⟩ := hrange.shuffle_isSome hplaces
    refine ⟨draws, order, hdrawn.accepted, hrange, horder, ?_⟩
    have places : (List.range out.length).map (fun place => out[place]?) = out.map some := by
      refine List.ext_getElem? fun k => ?_
      rw [List.getElem?_map, List.getElem?_map]
      by_cases hk : k < out.length
      · rw [List.getElem?_range hk, List.getElem?_eq_getElem hk, Option.map_some, Option.map_some,
          List.getElem?_eq_getElem hk]
      · rw [List.getElem?_eq_none (by rw [List.length_range]; omega), List.getElem?_eq_none (by omega)]
        rfl
    have hmap := Shuffle.shuffle_map (fun place => out[place]?) (out.length - 1) draws (List.range out.length)
    rw [places, Shuffle.shuffle_map, hout, horder] at hmap
    exact Option.some.inj hmap
  · rw [h] at hm
    cases hm

namespace PassphraseBuilder

variable {b : PassphraseBuilder} {wordlist : List String} {bytes : Bytes}

/-- The words are those of the indices that are drawn, in their order. -/
theorem generateFrom_draws (hvalid : b.validate = .ok ()) (hlen : wordlist.length = wordlistLen) :
    Draws b.words (fun pw draws => ∃ chosen, pw = b.separator.intercalate chosen ∧ (∀ idx ∈ draws, idx < wordlistLen) ∧
      chosen.map some = draws.map fun idx => wordlist[idx]?) (b.generateFrom wordlist) := by
  unfold generateFrom
  rw [hvalid]
  refine (Genpw.fill_draws (by rw [hlen]; decide) (by rw [hlen]; decide) b.words []).bind (k := 0) ?_
  rintro chosen ds ⟨_, rfl, hidx, hchosen⟩ -
  refine Draws.pure ⟨_, rfl, ?_, ?_⟩
  · rw [List.append_nil, ← hlen]
    exact hidx
  · rw [List.append_nil]
    exact hchosen

/-- The buffer of `generate` is used up only after more rejected draws than it has to spare. -/
theorem exhausted_rejected (hlen : wordlist.length = wordlistLen) (hwords : b.words ≤ u32Max)
    (hsize : bytes.length = b.needed) {t : ByteCursor} (h : b.generateFrom wordlist (new bytes) = .error exhausted t) :
    oversample < t.rejected := by
  cases hvalid : b.validate with
  | error e =>
    unfold generateFrom at h
    rw [hvalid] at h
    cases h
    unfold validate at hvalid
    split at hvalid <;> cases hvalid
  | ok u =>
    refine (generateFrom_draws hvalid hlen).rejected ?_ h
    rw [hsize]
    unfold needed Genpw.saturatingMul Genpw.saturatingAdd bytesPerDraw oversample Genpw.usizeMax
    unfold u32Max at hwords
    omega

end PassphraseBuilder

end Falach
