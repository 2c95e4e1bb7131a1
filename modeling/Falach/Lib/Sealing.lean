import Falach.Lib.Text
/-!
# Sealing

What a container of sealed bytes relies on: authenticated encryption that opens only what was sealed, keys that come
from one password and one salt each, and a text encoding with one text for all bytes.
-/

universe u

abbrev Octets := List UInt8

/-- Authenticated encryption with associated data. -/
structure Aead (Key Nonce : Type u) where
  encrypt : Key → Nonce → (aad msg : Octets) → Option Octets
  decrypt : Key → Nonce → (aad sealed : Octets) → Option Octets

/-- It adds a tag, opens what was sealed, and opens nothing else. -/
structure Aead.Ideal {Key Nonce : Type u} (aead : Aead Key Nonce) (tagLength : Nat)
    (Sealed : Key → Nonce → (aad msg : Octets) → Prop) : Prop where
  tagged : ∀ {k n a m c}, aead.encrypt k n a m = some c → c.length = m.length + tagLength
  opens : ∀ {k n a m c}, Sealed k n a m → aead.encrypt k n a m = some c → aead.decrypt k n a c = some m
  only : ∀ {k n a m c}, aead.decrypt k n a c = some m → Sealed k n a m ∧ aead.encrypt k n a m = some c

/-- A function that derives keys from passwords and salts gives no key twice. -/
def KeysDiffer {ε Key : Type u} (derive : Octets → Octets → Except ε Key) : Prop :=
  ∀ {password password' salt salt' : Octets} {key : Key},
    derive password salt = .ok key → derive password' salt' = .ok key → password = password' ∧ salt = salt'

/-- An encoding of bytes has one text for all bytes, and no white space in it. -/
structure Canonical {ε : Type u} (encode : Octets → Text) (decode : Text → Except ε Octets) : Prop where
  decode_eq : ∀ {t : Text} {bytes : Octets}, decode t = .ok bytes ↔ encode bytes = t
  visible : ∀ {bytes : Octets}, ∀ c ∈ encode bytes, Text.isWhitespace c = false

/-- There is no white space around an encoded text that could be trimmed. -/
theorem Canonical.trim_encode {ε : Type u} {encode : Octets → Text} {decode : Text → Except ε Octets}
    (h : Canonical encode decode) (bytes : Octets) : Text.trim (encode bytes) = encode bytes := by
  have hstart : (encode bytes).dropWhile Text.isWhitespace = encode bytes := by
    refine List.dropWhile_eq_self_iff.2 fun hlen => ?_
    rw [h.visible _ (List.getElem_mem hlen)]
    exact Bool.false_ne_true
  rw [Text.trim, hstart, List.rdropWhile_eq_self_iff]
  intro hne
  rw [h.visible _ (List.getLast_mem hne)]
  exact Bool.false_ne_true
