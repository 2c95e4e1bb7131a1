import Falach.Lib.Text
/-!
# Byte offsets

Places in a text that are counted in the bytes of its UTF-8 form.
-/

namespace Text

def byteLen : Text → Nat
  | [] => 0
  | c :: s => c.utf8Size + byteLen s

/-- What comes before and after a byte offset, unless it is inside a character or past the end. -/
def splitAtByte : Nat → Text → Option (Text × Text)
  | 0, s => some ([], s)
  | _ + 1, [] => none
  | n + 1, c :: s =>
    if c.utf8Size ≤ n + 1 then (splitAtByte (n + 1 - c.utf8Size) s).map fun parts => (c :: parts.1, parts.2) else none

/-- `str::is_char_boundary`. -/
def isBoundary (n : Nat) (s : Text) : Bool := (splitAtByte n s).isSome

/-- The longest start of a text with at most `n` bytes. -/
def takeBytes : Nat → Text → Text
  | _, [] => []
  | n, c :: s => if c.utf8Size ≤ n then c :: takeBytes (n - c.utf8Size) s else []

variable {n m : Nat} {s a b : Text} {c : Char}

@[simp] theorem byteLen_nil : byteLen [] = 0 := rfl

@[simp] theorem byteLen_cons : byteLen (c :: s) = c.utf8Size + byteLen s := rfl

@[simp] theorem byteLen_append : byteLen (a ++ b) = byteLen a + byteLen b := by
  induction a with
  | nil => simp
  | cons c a ih => simp [ih, Nat.add_assoc]

/-- `String::len`. -/
theorem utf8ByteSize_ofList (s : Text) : (String.ofList s).utf8ByteSize = byteLen s := by
  induction s using List.reverseRecOn with
  | nil => rfl
  | append_singleton s c ih =>
    rw [String.ofList_append, String.utf8ByteSize_append, ih, byteLen_append]
    simp

theorem splitAtByte_eq_some_iff : splitAtByte n s = some (a, b) ↔ s = a ++ b ∧ byteLen a = n := by
  induction s generalizing n a with
  | nil =>
    cases n with
    | zero => cases a <;> simp [splitAtByte]
    | succ n =>
      constructor
      · intro h
        cases h
      · rintro ⟨hs, hn⟩
        obtain ⟨rfl, -⟩ := List.nil_eq_append_iff.1 hs
        cases hn
  | cons c s ih =>
    -- every character takes a byte, so offset 0 is only before the first
    have hc := c.utf8Size_pos
    cases n with
    | zero =>
      cases a with
      | nil => simp [splitAtByte]
      | cons x a =>
        have hx := x.utf8Size_pos
        constructor
        · intro h
          cases h
        · rintro ⟨-, hn⟩
          rw [byteLen_cons] at hn
          omega
    | succ n =>
      rw [splitAtByte]
      cases a with
      | nil => simp
      | cons x a =>
        have htail := @ih (n + 1 - c.utf8Size) a
        constructor
        · intro h
          obtain ⟨hle, h⟩ := Option.ite_none_right_eq_some.1 h
          obtain ⟨parts, hparts, heq⟩ := Option.map_eq_some_iff.1 h
          cases heq
          obtain ⟨rfl, hlen⟩ := htail.1 hparts
          refine ⟨rfl, ?_⟩
          rw [byteLen_cons, hlen]
          omega
        · rintro ⟨hs, hn⟩
          cases hs
          rw [byteLen_cons] at hn
          have hle : c.utf8Size ≤ n + 1 := by omega
          rw [if_pos hle, htail.2 ⟨rfl, by omega⟩]
          rfl

theorem splitAtByte_append (a b : Text) : splitAtByte (byteLen a) (a ++ b) = some (a, b) :=
  splitAtByte_eq_some_iff.2 ⟨rfl, rfl⟩

theorem isBoundary_iff : isBoundary n s = true ↔ ∃ a b, s = a ++ b ∧ byteLen a = n := by
  simp only [isBoundary, Option.isSome_iff_exists, Prod.exists, splitAtByte_eq_some_iff]

theorem takeBytes_append_drop (n : Nat) (s : Text) : takeBytes n s ++ s.drop (takeBytes n s).length = s := by
  induction s generalizing n with
  | nil => rfl
  | cons c s ih =>
    rw [takeBytes]
    split
    · exact congrArg (c :: ·) (ih _)
    · rfl

theorem byteLen_takeBytes_le (n : Nat) (s : Text) : byteLen (takeBytes n s) ≤ n := by
  induction s generalizing n with
  | nil => exact Nat.zero_le n
  | cons c s ih =>
    rw [takeBytes]
    split
    · have htail := ih (n - c.utf8Size)
      rw [byteLen_cons]
      omega
    · exact Nat.zero_le n

/-- No start of at most `n` bytes is longer. -/
theorem byteLen_le_takeBytes (h : byteLen a ≤ n) : byteLen a ≤ byteLen (takeBytes n (a ++ b)) := by
  induction a generalizing n with
  | nil => exact Nat.zero_le _
  | cons c a ih =>
    rw [byteLen_cons] at h
    have hle : c.utf8Size ≤ n := by omega
    have htail := @ih (n - c.utf8Size) (by omega)
    rw [List.cons_append, takeBytes, if_pos hle, byteLen_cons, byteLen_cons]
    omega

end Text
