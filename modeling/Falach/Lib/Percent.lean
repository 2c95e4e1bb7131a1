import Falach.Lib.Text
/-!
# UTF-8 and percent-encoding

Text as its UTF-8 bytes, and the encoding that keeps some of the bytes and writes every other one as `%` and two
hexadecimal digits. What is encoded can be decoded, whatever bytes are kept, as long as `%` is not one of them.
-/

namespace Text

variable {s t : Text}

/-- The UTF-8 bytes of the text. -/
def utf8 (s : Text) : List UInt8 := s.flatMap String.utf8EncodeChar

/-- The text of UTF-8 bytes, if they are that. -/
def fromUtf8 (bytes : List UInt8) : Option Text := bytes.toByteArray.utf8Decode?.map Array.toList

/-- The text of ASCII bytes. -/
def ofAscii (bytes : List UInt8) : Text := bytes.map fun b => Char.ofNat b.toNat

@[simp] theorem utf8_nil : utf8 [] = [] := rfl

@[simp] theorem utf8_append : utf8 (s ++ t) = utf8 s ++ utf8 t := List.flatMap_append

@[simp] theorem ofAscii_append {a b : List UInt8} : ofAscii (a ++ b) = ofAscii a ++ ofAscii b := List.map_append

theorem fromUtf8_utf8 (s : Text) : fromUtf8 (utf8 s) = some s := by
  have hbytes : (utf8 s).toByteArray = s.utf8Encode := rfl
  rw [fromUtf8, hbytes, List.utf8Decode?_utf8Encode]
  rfl

/-- A text that was read has the bytes that it was read from. -/
theorem utf8_of_fromUtf8 {bytes : List UInt8} (h : fromUtf8 bytes = some t) : utf8 t = bytes := by
  obtain ⟨chars, hchars, rfl⟩ := Option.map_eq_some_iff.1 h
  have hsome : bytes.toByteArray.utf8Decode?.isSome := by
    rw [hchars]
    rfl
  have hencode : (utf8 chars.toList).toByteArray = bytes.toByteArray := by
    have hget := ByteArray.utf8Encode_get_utf8Decode? (b := bytes.toByteArray) (h := hsome)
    simp only [hchars, Option.get_some] at hget
    exact hget
  rw [← List.toList_data_toByteArray (l := utf8 chars.toList), hencode, List.toList_data_toByteArray]

theorem utf8_injective : Function.Injective utf8 := fun s t h => by
  have hs := fromUtf8_utf8 s
  rw [h, fromUtf8_utf8] at hs
  exact (Option.some.inj hs).symm

/-- An ASCII byte is a character of its own. -/
theorem utf8_ofAscii {bytes : List UInt8} (h : ∀ b ∈ bytes, b.toNat < 128) : utf8 (ofAscii bytes) = bytes := by
  induction bytes with
  | nil => rfl
  | cons b bytes ih =>
    obtain ⟨hb, hrest⟩ := List.forall_mem_cons.1 h
    have hnat : (Char.ofNat b.toNat).toNat = b.toNat := by
      have hvalid : Nat.isValidChar b.toNat := .inl (by omega)
      have hchar : Char.ofNat b.toNat = _ := dif_pos hvalid
      rw [hchar]
      rfl
    have hval : (Char.ofNat b.toNat).val ≤ 0x7f := by
      rw [UInt32.le_iff_toNat_le]
      change (Char.ofNat b.toNat).toNat ≤ 127
      omega
    have hone : String.utf8EncodeChar (Char.ofNat b.toNat) = [b] := by
      rw [String.utf8EncodeChar_eq_singleton (Char.utf8Size_eq_one_iff.2 hval)]
      refine congrArg (fun b => [b]) (UInt8.toNat_inj.1 ?_)
      change (Char.ofNat b.toNat).toNat % 256 = b.toNat
      rw [hnat]
      omega
    change String.utf8EncodeChar (Char.ofNat b.toNat) ++ utf8 (ofAscii bytes) = b :: bytes
    rw [hone, ih hrest]
    rfl

end Text

namespace Percent

/-- What holds of the numbers below 256 holds of all bytes. -/
theorem forall_byte {P : UInt8 → Prop} (h : ∀ n < 256, P (UInt8.ofNat n)) (b : UInt8) : P b := by
  have hb := h b.toNat b.toNat_lt
  rwa [UInt8.ofNat_toNat] at hb

/-- The percent sign. -/
def sign : UInt8 := 0x25

/-- The bytes that need no encoding: letters, digits and `-`, `.`, `_`, `~`. -/
def unreserved (b : UInt8) : Bool :=
  (0x41 ≤ b && b ≤ 0x5A) || (0x61 ≤ b && b ≤ 0x7A) || (0x30 ≤ b && b ≤ 0x39) ||
    b == 0x2D || b == 0x2E || b == 0x5F || b == 0x7E

/-- The hexadecimal digit of the low half of a byte. -/
def hexUpper (n : UInt8) : UInt8 := if n &&& 0xF < 10 then 0x30 + (n &&& 0xF) else 0x37 + (n &&& 0xF)

def hexNibble (b : UInt8) : Option UInt8 :=
  if 0x30 ≤ b ∧ b ≤ 0x39 then some (b - 0x30)
  else if 0x61 ≤ b ∧ b ≤ 0x66 then some (b - 0x61 + 10)
  else if 0x41 ≤ b ∧ b ≤ 0x46 then some (b - 0x41 + 10)
  else none

def escape (b : UInt8) : List UInt8 := [sign, hexUpper (b >>> 4), hexUpper (b &&& 0xF)]

def encodeByte (keep : UInt8 → Bool) (b : UInt8) : List UInt8 := if keep b then [b] else escape b

def encode (keep : UInt8 → Bool) (bytes : List UInt8) : List UInt8 := bytes.flatMap (encodeByte keep)

/-- The byte that two hexadecimal digits stand for. -/
def unescape (high low : UInt8) : Option UInt8 := do
  let high ← hexNibble high
  let low ← hexNibble low
  return (high <<< 4) ||| low

def decode : List UInt8 → Option (List UInt8)
  | [] => some []
  | b :: rest =>
    if b = sign then
      match rest with
      | high :: low :: rest => do
        let byte ← unescape high low
        return byte :: (← decode rest)
      | _ => none
    else (decode rest).map (b :: ·)

variable {keep : UInt8 → Bool} {a b : UInt8} {s t : List UInt8}

@[simp] theorem encode_nil : encode keep [] = [] := rfl

theorem encode_cons : encode keep (b :: s) = encodeByte keep b ++ encode keep s := rfl

@[simp] theorem encode_append : encode keep (s ++ t) = encode keep s ++ encode keep t := List.flatMap_append

theorem unescape_escape (b : UInt8) : unescape (hexUpper (b >>> 4)) (hexUpper (b &&& 0xF)) = some b := by
  refine forall_byte (P := fun b => unescape (hexUpper (b >>> 4)) (hexUpper (b &&& 0xF)) = some b) ?_ b
  decide +kernel

theorem decode_cons (hb : b ≠ sign) : decode (b :: s) = (decode s).map (b :: ·) := by
  rw [decode.eq_def]
  exact if_neg hb

theorem decode_escape : decode (sign :: a :: b :: s) = (unescape a b).bind fun c => (decode s).map (c :: ·) := by
  simp only [decode, if_true]
  cases unescape a b <;> cases decode s <;> rfl

theorem decode_encode (hkeep : keep sign = false) (s : List UInt8) : decode (encode keep s) = some s := by
  induction s with
  | nil => rfl
  | cons b s ih =>
    rw [encode_cons, encodeByte]
    split
    · rename_i hb
      have hsign : b ≠ sign := by rintro rfl; rw [hkeep] at hb; cases hb
      rw [List.singleton_append, decode_cons hsign, ih]
      rfl
    · simp only [escape, List.cons_append, List.nil_append, decode, if_true, unescape_escape, ih]
      rfl

theorem encode_injective (hkeep : keep sign = false) : Function.Injective (encode keep) := fun s t h => by
  have hs := decode_encode hkeep s
  rw [h, decode_encode hkeep] at hs
  exact (Option.some.inj hs).symm

theorem hexUpper_unreserved (n : UInt8) : unreserved (hexUpper n) = true := by
  refine forall_byte (P := fun n => unreserved (hexUpper n) = true) ?_ n
  decide +kernel

theorem unreserved_lt (h : unreserved b = true) : b.toNat < 128 := by
  revert h
  refine forall_byte (P := fun b => unreserved b = true → b.toNat < 128) ?_ b
  decide +kernel

/-- The bytes of an encoding are kept ones, percent signs and digits. -/
theorem mem_encode (h : b ∈ encode keep s) : keep b = true ∨ b = sign ∨ unreserved b = true := by
  obtain ⟨a, -, hb⟩ := List.mem_flatMap.1 h
  unfold encodeByte at hb
  split at hb
  · rename_i ha
    rw [List.mem_singleton.1 hb]
    exact .inl ha
  · simp only [escape, List.mem_cons, List.not_mem_nil, or_false] at hb
    rcases hb with rfl | rfl | rfl
    · exact .inr (.inl rfl)
    · exact .inr (.inr (hexUpper_unreserved _))
    · exact .inr (.inr (hexUpper_unreserved _))

/-- Where only ASCII bytes are kept the encoding is ASCII. -/
theorem encode_lt (hkeep : ∀ b, keep b = true → b.toNat < 128) : ∀ b ∈ encode keep s, b.toNat < 128 := by
  intro b hb
  rcases mem_encode hb with h | rfl | h
  · exact hkeep b h
  · decide
  · exact unreserved_lt h

/-- Bytes that are all kept are not changed. -/
theorem encode_eq_self (h : ∀ b ∈ s, keep b = true) : encode keep s = s := by
  induction s with
  | nil => rfl
  | cons b s ih =>
    obtain ⟨hb, hs⟩ := List.forall_mem_cons.1 h
    rw [encode_cons, encodeByte, if_pos hb, ih hs]
    rfl

/-- The text with all but its unreserved characters encoded. -/
def encodeText (s : Text) : Text := Text.ofAscii (encode unreserved s.utf8)

theorem utf8_encodeText (s : Text) : (encodeText s).utf8 = encode unreserved s.utf8 :=
  Text.utf8_ofAscii (encode_lt fun _ => unreserved_lt)

/-- No separator of a URL is in an encoded text. -/
theorem separator_notMem_encodeText {c : Char} (hc : c ∈ ['/', '?', '&', '=', '#']) (s : Text) : c ∉ encodeText s := by
  intro h
  obtain ⟨b, hb, rfl⟩ := List.mem_map.1 h
  have hplain : b = sign ∨ unreserved b = true := by
    rcases mem_encode hb with h | h | h
    · exact .inr h
    · exact .inl h
    · exact .inr h
  clear hb h
  revert hc hplain
  refine forall_byte (P := fun b => Char.ofNat b.toNat ∈ ['/', '?', '&', '=', '#'] →
    ¬ (b = sign ∨ unreserved b = true)) ?_ b
  decide +kernel

theorem decode_escape_short {b : UInt8} (h : s.length < 2) (hb : b = sign) : decode (b :: s) = none := by
  subst hb
  rcases s with _ | ⟨x, _ | ⟨y, s⟩⟩
  · rfl
  · rfl
  · simp only [List.length_cons] at h
    omega

theorem length_encodeByte_pos : 0 < (encodeByte keep b).length := by
  unfold encodeByte
  split <;> simp [escape]

end Percent
