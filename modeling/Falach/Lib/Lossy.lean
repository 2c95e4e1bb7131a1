import Falach.Lib.Percent
/-!
# Text of any bytes

Bytes that are no UTF-8 are read as text all the same: what begins no character becomes a replacement character.
-/

namespace Text

def continues (b : UInt8) : Bool := 0x80 ≤ b && b ≤ 0xBF

/-- The bytes begin a character of three or four bytes. -/
def startsLong (b c : UInt8) : Bool :=
  (b == 0xE0 && 0xA0 ≤ c && c ≤ 0xBF) || (0xE1 ≤ b && b ≤ 0xEC && continues c) ||
    (b == 0xED && 0x80 ≤ c && c ≤ 0x9F) || (0xEE ≤ b && b ≤ 0xEF && continues c) ||
    (b == 0xF0 && 0x90 ≤ c && c ≤ 0xBF) || (0xF1 ≤ b && b ≤ 0xF3 && continues c) ||
    (b == 0xF4 && 0x80 ≤ c && c ≤ 0x8F)

/-- How many bytes one replacement character stands for: as many as begin some character, and one at least. -/
def invalidLen (bytes : List UInt8) : Nat :=
  let b := bytes.getD 0 0
  if !startsLong b (bytes.getD 1 0) then 1 else if b < 0xF0 || !continues (bytes.getD 2 0) then 2 else 3

def fromUtf8LossyLoop : Nat → List UInt8 → Text
  | 0, _ => []
  | n + 1, bytes =>
    if bytes = [] then []
    else
      match bytes.toByteArray.utf8DecodeChar? 0 with
      | some c => c :: fromUtf8LossyLoop n (bytes.drop c.utf8Size)
      | none => '\uFFFD' :: fromUtf8LossyLoop n (bytes.drop (invalidLen bytes))

/-- `String::from_utf8_lossy`. -/
def fromUtf8Lossy (bytes : List UInt8) : Text := fromUtf8LossyLoop bytes.length bytes

theorem fromUtf8LossyLoop_utf8 (s : Text) {n : Nat} (hn : s.length ≤ n) : fromUtf8LossyLoop n (utf8 s) = s := by
  induction s generalizing n with
  | nil =>
    cases n with
    | zero => rfl
    | succ n => exact if_pos rfl
  | cons c s ih =>
    obtain ⟨n, rfl⟩ := Nat.exists_eq_succ_of_ne_zero (Nat.ne_of_gt (Nat.lt_of_lt_of_le (Nat.succ_pos _) hn))
    have hutf8 : utf8 (c :: s) = String.utf8EncodeChar c ++ utf8 s := List.flatMap_cons
    have hchar : (utf8 (c :: s)).toByteArray.utf8DecodeChar? 0 = some c := by
      rw [hutf8, List.toByteArray_append]
      exact ByteArray.utf8DecodeChar?_utf8EncodeChar_append
    have hne : utf8 (c :: s) ≠ [] := by
      intro h
      rw [hutf8, List.append_eq_nil_iff] at h
      have hlen := String.length_utf8EncodeChar c
      rw [h.1] at hlen
      exact absurd hlen.symm (Nat.ne_of_gt c.utf8Size_pos)
    rw [Nat.succ_eq_add_one, fromUtf8LossyLoop, if_neg hne, hchar]
    dsimp only
    rw [hutf8, List.drop_left' (String.length_utf8EncodeChar c), ih (Nat.le_of_succ_le_succ hn)]

/-- No character has less than one byte. -/
theorem length_le_utf8 (s : Text) : s.length ≤ (utf8 s).length := by
  induction s with
  | nil => exact Nat.le_refl _
  | cons c s ih =>
    have hpos := c.utf8Size_pos
    have hutf8 : utf8 (c :: s) = String.utf8EncodeChar c ++ utf8 s := List.flatMap_cons
    rw [hutf8, List.length_append, String.length_utf8EncodeChar, List.length_cons]
    omega

/-- Text is read back. -/
@[simp] theorem fromUtf8Lossy_utf8 (s : Text) : fromUtf8Lossy (utf8 s) = s :=
  fromUtf8LossyLoop_utf8 s (length_le_utf8 s)

end Text
