import Falach.Lib.Sealing
/-!
# Base64

The encoding of RFC 4648 with padding: three bytes are written as four digits of six bits. Bytes have one text:
padding is needed, and the bits that no byte reaches into are zero.
-/

namespace Base64

def alphabet : Text := "ABCDEFGHIJKLMNOPQRSTUVWXYZabcdefghijklmnopqrstuvwxyz0123456789+/".toList

def digit (n : Nat) : Char := alphabet.getD n 'A'

def value (c : Char) : Option Nat := alphabet.findIdx? fun x => x = c

def encode : Octets → Text
  | [] => []
  | [a] => [digit (a.toNat / 4), digit (a.toNat % 4 * 16), '=', '=']
  | [a, b] => [digit (a.toNat / 4), digit (a.toNat % 4 * 16 + b.toNat / 16), digit (b.toNat % 16 * 4), '=']
  | a :: b :: c :: rest =>
    digit (a.toNat / 4) :: digit (a.toNat % 4 * 16 + b.toNat / 16) :: digit (b.toNat % 16 * 4 + c.toNat / 64) ::
      digit (c.toNat % 64) :: encode rest

/-- The bytes of the last four characters, by how many of them are padding. -/
def decodeLast (w x y z : Char) : Option Octets := do
  let p ← value w
  let q ← value x
  if y = '=' ∧ z = '=' then if q % 16 = 0 then some [.ofNat (p * 4 + q / 16)] else none
  else do
    let r ← value y
    if z = '=' then
      if r % 4 = 0 then some [.ofNat (p * 4 + q / 16), .ofNat (q % 16 * 16 + r / 4)] else none
    else do
      let s ← value z
      some [.ofNat (p * 4 + q / 16), .ofNat (q % 16 * 16 + r / 4), .ofNat (r % 4 * 64 + s)]

def decode : Text → Option Octets
  | [] => some []
  | w :: x :: y :: z :: rest => do
    let group ← decodeLast w x y z
    -- padding ends the text
    if group.length = 3 ∨ rest = [] then (decode rest).map (group ++ ·) else none
  | _ => none

/-! ## Digits -/

theorem value_digit {n : Nat} (h : n < 64) : value (digit n) = some n := by
  have hall : ((List.range 64).all fun n => value (digit n) = some n) = true := by decide +kernel
  exact of_decide_eq_true (List.all_eq_true.1 hall n (List.mem_range.2 h))

theorem digit_value {c : Char} {n : Nat} (h : value c = some n) : digit n = c ∧ n < 64 := by
  obtain ⟨hlt, hc, -⟩ := List.findIdx?_eq_some_iff_getElem.1 h
  refine ⟨?_, hlt⟩
  rw [digit, List.getD_eq_getElem?_getD, List.getElem?_eq_getElem hlt, Option.getD_some]
  exact of_decide_eq_true hc

theorem digit_ne_padding (n : Nat) : digit n ≠ '=' := by
  by_cases hn : n < 64
  · intro he
    have hvalue := value_digit hn
    rw [he] at hvalue
    cases hvalue
  · have hlength : alphabet.length ≤ n := Nat.le_of_not_lt hn
    rw [digit, List.getD_eq_getElem?_getD, List.getElem?_eq_none hlength, Option.getD_none]
    decide

theorem toNat_ofNat {n : Nat} (h : n < 256) : (UInt8.ofNat n).toNat = n := by
  rw [UInt8.toNat_ofNat', Nat.mod_eq_of_lt h]

theorem ofNat_eq {n : Nat} {b : UInt8} (h : n = b.toNat) : UInt8.ofNat n = b := by
  rw [h, UInt8.ofNat_toNat]

/-! ## Groups -/

variable {w x y z : Char} {group : Octets} {a b c : UInt8}

theorem decodeLast_one : decodeLast (digit (a.toNat / 4)) (digit (a.toNat % 4 * 16)) '=' '=' = some [a] := by
  have ha := a.toNat_lt
  have hbyte : UInt8.ofNat (a.toNat / 4 * 4 + a.toNat % 4 * 16 / 16) = a := ofNat_eq (by omega)
  have hzero : a.toNat % 4 * 16 % 16 = 0 := by omega
  rw [decodeLast, value_digit (show a.toNat / 4 < 64 by omega), value_digit (show a.toNat % 4 * 16 < 64 by omega)]
  simp only [Option.bind_eq_bind, Option.bind_some, and_self, if_true, hzero, hbyte]

theorem decodeLast_two : decodeLast (digit (a.toNat / 4)) (digit (a.toNat % 4 * 16 + b.toNat / 16))
    (digit (b.toNat % 16 * 4)) '=' = some [a, b] := by
  have ha := a.toNat_lt
  have hb := b.toNat_lt
  have hfirst : UInt8.ofNat (a.toNat / 4 * 4 + (a.toNat % 4 * 16 + b.toNat / 16) / 16) = a := ofNat_eq (by omega)
  have hsecond : UInt8.ofNat ((a.toNat % 4 * 16 + b.toNat / 16) % 16 * 16 + b.toNat % 16 * 4 / 4) = b :=
    ofNat_eq (by omega)
  have hzero : b.toNat % 16 * 4 % 4 = 0 := by omega
  rw [decodeLast, value_digit (show a.toNat / 4 < 64 by omega),
    value_digit (show a.toNat % 4 * 16 + b.toNat / 16 < 64 by omega), value_digit (show b.toNat % 16 * 4 < 64 by omega)]
  simp only [Option.bind_eq_bind, Option.bind_some, digit_ne_padding, false_and, if_false, if_true, hzero, hfirst,
    hsecond]

theorem decodeLast_three : decodeLast (digit (a.toNat / 4)) (digit (a.toNat % 4 * 16 + b.toNat / 16))
    (digit (b.toNat % 16 * 4 + c.toNat / 64)) (digit (c.toNat % 64)) = some [a, b, c] := by
  have ha := a.toNat_lt
  have hb := b.toNat_lt
  have hc := c.toNat_lt
  have hfirst : UInt8.ofNat (a.toNat / 4 * 4 + (a.toNat % 4 * 16 + b.toNat / 16) / 16) = a := ofNat_eq (by omega)
  have hsecond : UInt8.ofNat ((a.toNat % 4 * 16 + b.toNat / 16) % 16 * 16 + (b.toNat % 16 * 4 + c.toNat / 64) / 4) =
    b :=
    ofNat_eq (by omega)
  have hthird : UInt8.ofNat ((b.toNat % 16 * 4 + c.toNat / 64) % 4 * 64 + c.toNat % 64) = c := ofNat_eq (by omega)
  rw [decodeLast, value_digit (show a.toNat / 4 < 64 by omega),
    value_digit (show a.toNat % 4 * 16 + b.toNat / 16 < 64 by omega),
    value_digit (show b.toNat % 16 * 4 + c.toNat / 64 < 64 by omega), value_digit (show c.toNat % 64 < 64 by omega)]
  simp only [Option.bind_eq_bind, Option.bind_some, digit_ne_padding, false_and, if_false, hfirst, hsecond, hthird]

/-- The digits of a group are the ones that it was read from. -/
theorem encode_decodeLast (hgroup : decodeLast w x y z = some group) :
    encode group = [w, x, y, z] ∧ 1 ≤ group.length ∧ group.length ≤ 3 := by
  obtain ⟨p, hp, hrest⟩ := Option.bind_eq_some_iff.1 hgroup
  obtain ⟨q, hq, h⟩ := Option.bind_eq_some_iff.1 hrest
  obtain ⟨rfl, hp64⟩ := digit_value hp
  obtain ⟨rfl, hq64⟩ := digit_value hq
  have hpq : p * 4 + q / 16 < 256 := by omega
  split at h
  · rename_i hpad
    obtain ⟨rfl, rfl⟩ := hpad
    split at h
    · rename_i hzero
      cases h
      have hfirst : (p * 4 + q / 16) / 4 = p := by omega
      have hsecond : (p * 4 + q / 16) % 4 * 16 = q := by omega
      refine ⟨?_, by simp, by simp⟩
      simp only [encode, toNat_ofNat hpq, hfirst, hsecond]
    · cases h
  · obtain ⟨r, hr, hmore⟩ := Option.bind_eq_some_iff.1 h
    obtain ⟨rfl, hr64⟩ := digit_value hr
    have hqr : q % 16 * 16 + r / 4 < 256 := by omega
    have hfirst : (p * 4 + q / 16) / 4 = p := by omega
    have hsecond : (p * 4 + q / 16) % 4 * 16 + (q % 16 * 16 + r / 4) / 16 = q := by omega
    split at hmore
    · rename_i hpad
      subst hpad
      split at hmore
      · rename_i hzero
        cases hmore
        have hthird : (q % 16 * 16 + r / 4) % 16 * 4 = r := by omega
        refine ⟨?_, by simp, by simp⟩
        simp only [encode, toNat_ofNat hpq, toNat_ofNat hqr, hfirst, hsecond, hthird]
      · cases hmore
    · obtain ⟨s, hs, hlast⟩ := Option.bind_eq_some_iff.1 hmore
      obtain ⟨rfl, hs64⟩ := digit_value hs
      cases hlast
      have hrs : r % 4 * 64 + s < 256 := by omega
      have hthird : (q % 16 * 16 + r / 4) % 16 * 4 + (r % 4 * 64 + s) / 64 = r := by omega
      have hfourth : (r % 4 * 64 + s) % 64 = s := by omega
      refine ⟨?_, by simp, by simp⟩
      simp only [encode, toNat_ofNat hpq, toNat_ofNat hqr, toNat_ofNat hrs, hfirst, hsecond, hthird, hfourth]

/-! ## Texts -/

theorem decode_encode (bytes : Octets) : decode (encode bytes) = some bytes := by
  induction bytes using encode.induct with
  | case1 => rfl
  | case2 a => simp [encode, decode, decodeLast_one]
  | case3 a b => simp [encode, decode, decodeLast_two]
  | case4 a b c rest ih => simp [encode, decode, decodeLast_three, ih]

theorem encode_decode {t : Text} {bytes : Octets} (h : decode t = some bytes) : encode bytes = t := by
  induction t using decode.induct generalizing bytes with
  | case1 =>
    cases h
    rfl
  | case2 w x y z rest ih =>
    obtain ⟨group, hgroup, hread⟩ := Option.bind_eq_some_iff.1 h
    obtain ⟨hencode, -, -⟩ := encode_decodeLast hgroup
    split at hread
    · rename_i hend
      obtain ⟨bytes', hrest, rfl⟩ := Option.map_eq_some_iff.1 hread
      rcases hend with hthree | rfl
      · obtain ⟨a, b, c, rfl⟩ := List.length_eq_three.1 hthree
        simp only [encode, List.cons.injEq, and_true] at hencode
        obtain ⟨hw, hx, hy, hz⟩ := hencode
        rw [List.cons_append, List.cons_append, List.cons_append, List.nil_append, encode, hw, hx, hy, hz, ih hrest]
      · cases hrest
        rw [List.append_nil, hencode]
    · cases hread
  | case3 t hnil hlong =>
    rw [decode] at h
    · cases h
    · exact hnil
    · exact hlong

/-- A text that is read is the one that is written for its bytes. -/
theorem decode_eq_some_iff {t : Text} {bytes : Octets} : decode t = some bytes ↔ encode bytes = t :=
  ⟨encode_decode, fun h => h ▸ decode_encode bytes⟩

theorem mem_encode {ch : Char} {bytes : Octets} (h : ch ∈ encode bytes) : ch = '=' ∨ ∃ n, ch = digit n := by
  induction bytes using encode.induct with
  | case1 => cases h
  | case2 a =>
    simp only [encode, List.mem_cons, List.not_mem_nil, or_false] at h
    rcases h with rfl | rfl | rfl | rfl
    · exact .inr ⟨_, rfl⟩
    · exact .inr ⟨_, rfl⟩
    · exact .inl rfl
    · exact .inl rfl
  | case3 a b =>
    simp only [encode, List.mem_cons, List.not_mem_nil, or_false] at h
    rcases h with rfl | rfl | rfl | rfl
    · exact .inr ⟨_, rfl⟩
    · exact .inr ⟨_, rfl⟩
    · exact .inr ⟨_, rfl⟩
    · exact .inl rfl
  | case4 a b c rest ih =>
    simp only [encode, List.mem_cons] at h
    rcases h with rfl | rfl | rfl | rfl | h
    · exact .inr ⟨_, rfl⟩
    · exact .inr ⟨_, rfl⟩
    · exact .inr ⟨_, rfl⟩
    · exact .inr ⟨_, rfl⟩
    · exact ih h

theorem digit_visible (n : Nat) : Text.isWhitespace (digit n) = false := by
  by_cases hn : n < 64
  · have hall : ((List.range 64).all fun n => !Text.isWhitespace (digit n)) = true := by decide +kernel
    have hdigit := List.all_eq_true.1 hall n (List.mem_range.2 hn)
    rwa [Bool.not_eq_true'] at hdigit
  · have hlength : alphabet.length ≤ n := Nat.le_of_not_lt hn
    rw [digit, List.getD_eq_getElem?_getD, List.getElem?_eq_none hlength, Option.getD_none]
    decide

/-- With any text for the error, base64 is a canonical encoding. -/
theorem canonical {ε : Type} (e : ε) :
    Canonical encode fun t => ((decode t).elim (.error e) .ok : Except ε Octets) where
  decode_eq := by
    intro t bytes
    rw [← decode_eq_some_iff]
    cases decode t with
    | none => exact ⟨nofun, nofun⟩
    | some bytes' => exact ⟨fun h => congrArg some (Except.ok.inj h), fun h => congrArg Except.ok (Option.some.inj h)⟩
  visible := by
    intro bytes ch hch
    rcases mem_encode hch with rfl | ⟨n, rfl⟩
    · decide
    · exact digit_visible n

end Base64
