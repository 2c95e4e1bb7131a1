import Falach.Core.Crud
import Falach.Entry.Totp
import Falach.Lib.Wire
/-!
# One-time codes

The code that the configuration in an entry shows at some time: the digits of a number that four bytes of an HMAC hold,
which stay the same until the period is over.
-/

namespace Falach

open Keepass

/-! ## The code -/

def otpField : String := "otp"

section

-- `Hmac<Sha1>` of a key and a message
variable (hmacSha1 : List UInt8 → List UInt8 → List UInt8)

/-- The number in the four bytes that the last byte points to, without its highest bit. -/
def dynamicTruncation (hmacBytes : List UInt8) : Option UInt32 := do
  let last ← hmacBytes.getLast?
  let offset := (last &&& 0x0f).toNat
  let b₀ ← hmacBytes[offset]?
  let b₁ ← hmacBytes[offset + 1]?
  let b₂ ← hmacBytes[offset + 2]?
  let b₃ ← hmacBytes[offset + 3]?
  return (b₀.toUInt32 &&& 0x7f) <<< 24 ||| b₁.toUInt32 <<< 16 ||| b₂.toUInt32 <<< 8 ||| b₃.toUInt32

/-- `hotp_code`, if every index is in bounds. -/
def hotpCode (secret : List UInt8) (counter : UInt64) (algorithm : TotpAlgorithm) (digits : UInt32) : Option Text := do
  let hmacBytes := match algorithm with
    | .sha1 => hmacSha1 secret (Wire.leBytes 8 counter.toNat).reverse
  let binary ← dynamicTruncation hmacBytes
  let modulus : UInt64 := 10 ^ digits.toNat
  return (Nat.toDigits 10 (binary.toUInt64 % modulus).toNat).leftpad digits.toNat '0'

namespace Totp

variable (t : Totp) (time : UInt64)

def codeAt : Option Text := hotpCode hmacSha1 t.secret (time / t.period) t.algorithm t.digits

/-- `Totp::remaining_at`; the period is not zero. -/
def remainingAt : UInt64 := t.period - time % t.period

end Totp

/-- How a code is refused. -/
inductive TotpFailure where
  | vault (e : VaultError)
  | entryHasNoTotp (uuid : Uuid)
  | invalidOtpUri (source : OtpAuthUriError)
  | panicked
deriving DecidableEq

/-- `compute_current_totp`; a clock before the epoch counts as zero. -/
def computeCurrentTotp (db : Database) (uuid : Uuid) (now : UInt64) : Except TotpFailure (Text × UInt64) := do
  let id ← (findEntryId db uuid).mapError .vault
  match db.entry id with
  | none => .error (.vault (.entryNotFound uuid))
  | some entry =>
    match entry.fields.lookup otpField with
    | none => .error (.entryHasNoTotp uuid)
    | some uri =>
      match parseOtpauthUri uri.get.toList with
      | .error (.error source) => .error (.invalidOtpUri source)
      | .error .outOfBounds => .error .panicked
      | .ok totp =>
        match totp.codeAt hmacSha1 now with
        | none => .error .panicked
        | some code => .ok (code, totp.remainingAt now)

end

/-! ## The number in four bytes -/

theorem shiftLeft_toNat {x i : UInt32} (hx : x.toNat < 256) (hi : i.toNat ≤ 24) :
    (x <<< i).toNat = 2 ^ i.toNat * x.toNat := by
  have hpow : 2 ^ i.toNat ≤ 2 ^ 24 := Nat.pow_le_pow_right (by decide) hi
  have hlt : 2 ^ i.toNat * x.toNat < 2 ^ 32 := by
    calc 2 ^ i.toNat * x.toNat ≤ 2 ^ 24 * x.toNat := Nat.mul_le_mul_right _ hpow
      _ < 2 ^ 32 := by omega
  have hshift : i.toNat % 32 = i.toNat := Nat.mod_eq_of_lt (by omega)
  rw [UInt32.toNat_shiftLeft, hshift, Nat.shiftLeft_eq, Nat.mul_comm, Nat.mod_eq_of_lt hlt]

theorem or_toNat {x y : UInt32} {i k : Nat} (hx : x.toNat = 2 ^ i * k) (hy : y.toNat < 2 ^ i) :
    (x ||| y).toNat = x.toNat + y.toNat := by
  rw [UInt32.toNat_or, hx, Nat.two_pow_add_eq_or_of_lt hy]

/-- The number in four bytes, the highest first, without its highest bit. -/
def fourBytes (b₀ b₁ b₂ b₃ : UInt8) : Nat := 2 ^ 24 * (b₀.toNat % 128) + 2 ^ 16 * b₁.toNat + 2 ^ 8 * b₂.toNat + b₃.toNat

theorem fourBytes_toNat (b₀ b₁ b₂ b₃ : UInt8) :
    ((b₀.toUInt32 &&& 0x7f) <<< 24 ||| b₁.toUInt32 <<< 16 ||| b₂.toUInt32 <<< 8 ||| b₃.toUInt32).toNat =
      fourBytes b₀ b₁ b₂ b₃ := by
  have h₁ := b₁.toNat_lt
  have h₂ := b₂.toNat_lt
  have h₃ := b₃.toNat_lt
  have hlow : (b₀.toUInt32 &&& 0x7f).toNat = b₀.toNat % 128 := by
    rw [UInt32.toNat_and, UInt8.toNat_toUInt32]
    exact Nat.and_two_pow_sub_one_eq_mod _ 7
  have hb₀ : ((b₀.toUInt32 &&& 0x7f) <<< 24).toNat = 2 ^ 24 * (b₀.toNat % 128) := by
    rw [shiftLeft_toNat (by omega) (by decide), hlow]
    rfl
  have hb₁ : (b₁.toUInt32 <<< 16).toNat = 2 ^ 16 * b₁.toNat := shiftLeft_toNat h₁ (by decide)
  have hb₂ : (b₂.toUInt32 <<< 8).toNat = 2 ^ 8 * b₂.toNat := shiftLeft_toNat h₂ (by decide)
  -- each byte comes below those before it
  have hor₁ : ((b₀.toUInt32 &&& 0x7f) <<< 24 ||| b₁.toUInt32 <<< 16).toNat = 2 ^ 16 * (2 ^ 8 * (b₀.toNat % 128) + b₁.toNat) := by
    rw [or_toNat hb₀ (by omega), hb₀, hb₁]
    omega
  have hor₂ : ((b₀.toUInt32 &&& 0x7f) <<< 24 ||| b₁.toUInt32 <<< 16 ||| b₂.toUInt32 <<< 8).toNat =
      2 ^ 8 * (2 ^ 8 * (2 ^ 8 * (b₀.toNat % 128) + b₁.toNat) + b₂.toNat) := by
    rw [or_toNat hor₁ (by omega), hor₁, hb₂]
    omega
  rw [or_toNat hor₂ (by rw [UInt8.toNat_toUInt32]; omega), hor₂, UInt8.toNat_toUInt32, fourBytes]
  omega

theorem fourBytes_lt (b₀ b₁ b₂ b₃ : UInt8) : fourBytes b₀ b₁ b₂ b₃ < 2 ^ 31 := by
  have h₁ := b₁.toNat_lt
  have h₂ := b₂.toNat_lt
  have h₃ := b₃.toNat_lt
  rw [fourBytes]
  omega

/-- The number in the four bytes that the last byte points to. -/
def Truncates (hmacBytes : List UInt8) (n : Nat) : Prop :=
  ∃ last b₀ b₁ b₂ b₃ : UInt8, hmacBytes.getLast? = some last ∧ hmacBytes[last.toNat % 16]? = some b₀ ∧
    hmacBytes[last.toNat % 16 + 1]? = some b₁ ∧ hmacBytes[last.toNat % 16 + 2]? = some b₂ ∧
    hmacBytes[last.toNat % 16 + 3]? = some b₃ ∧ n = fourBytes b₀ b₁ b₂ b₃

/-- Of twenty bytes, the four are always there. -/
theorem dynamicTruncation_total {hmacBytes : List UInt8} (hlen : hmacBytes.length = 20) :
    ∃ binary, dynamicTruncation hmacBytes = some binary ∧ Truncates hmacBytes binary.toNat := by
  have hne : hmacBytes ≠ [] := fun hnil => by rw [hnil] at hlen; cases hlen
  have hlast := List.getLast?_eq_some_getLast hne
  generalize hmacBytes.getLast hne = last at hlast
  have hoffset : (last &&& 0x0f).toNat = last.toNat % 16 := by
    rw [UInt8.toNat_and]
    exact Nat.and_two_pow_sub_one_eq_mod _ 4
  have hlt : last.toNat % 16 < 16 := Nat.mod_lt _ (by decide)
  have there : ∀ i, i < 20 → ∃ b, hmacBytes[i]? = some b := fun i hi => ⟨_, List.getElem?_eq_getElem (hlen ▸ hi)⟩
  obtain ⟨b₀, hb₀⟩ := there (last.toNat % 16) (by omega)
  obtain ⟨b₁, hb₁⟩ := there (last.toNat % 16 + 1) (by omega)
  obtain ⟨b₂, hb₂⟩ := there (last.toNat % 16 + 2) (by omega)
  obtain ⟨b₃, hb₃⟩ := there (last.toNat % 16 + 3) (by omega)
  refine ⟨_, ?_, last, b₀, b₁, b₂, b₃, hlast, hb₀, hb₁, hb₂, hb₃, fourBytes_toNat b₀ b₁ b₂ b₃⟩
  rw [dynamicTruncation, hlast]
  simp only [Option.bind_eq_bind, Option.bind_some, hoffset, hb₀, hb₁, hb₂, hb₃]
  rfl

/-! ## The digits -/

/-- What a code of some width shows of a number. -/
structure Shows (code : Text) (width n : Nat) : Prop where
  length : code.length = width
  digits : ∀ c ∈ code, c.isDigit
  value : Nat.ofDigitChars 10 code 0 = n % 10 ^ width

theorem shows_leftpad {width n : Nat} (hwidth : 0 < width) :
    Shows ((Nat.toDigits 10 (n % 10 ^ width)).leftpad width '0') width n := by
  have hlt : n % 10 ^ width < 10 ^ width := Nat.mod_lt _ (Nat.pow_pos (by decide))
  have hlen : (Nat.toDigits 10 (n % 10 ^ width)).length ≤ width := (Nat.length_toDigits_le_iff (by decide) hwidth).2 hlt
  refine ⟨?_, fun c hc => ?_, ?_⟩
  · rw [List.length_leftpad, Nat.max_eq_left hlen]
  · rcases List.mem_append.1 hc with hc | hc
    · rw [(List.mem_replicate.1 hc).2]
      rfl
    · exact Nat.isDigit_of_mem_toDigits (by decide) (by decide) hc
  · rw [List.leftpad, Nat.ofDigitChars_append, Nat.ofDigitChars_replicate_zero, Nat.mul_zero, Nat.ofDigitChars_ten_toDigits]

/-- Ten digits fit in a `u64`. -/
theorem modulus_toNat (digits : Digits) : ((10 : UInt64) ^ digits.val.toNat).toNat = 10 ^ digits.val.toNat := by
  have hpow : ∀ k < 11, ((10 : UInt64) ^ k).toNat = 10 ^ k := by decide
  have hle : digits.val.toNat ≤ 10 := digits.property.2
  exact hpow _ (Nat.lt_succ_of_le hle)

section

variable {hmacSha1 : List UInt8 → List UInt8 → List UInt8}

/-- A code has as many digits as are asked for. -/
theorem hotpCode_total (hlen : ∀ key message, (hmacSha1 key message).length = 20) (secret : List UInt8) (counter : UInt64)
    (digits : Digits) : ∃ code n, hotpCode hmacSha1 secret counter .sha1 digits.val = some code ∧
      Truncates (hmacSha1 secret (Wire.leBytes 8 counter.toNat).reverse) n ∧ Shows code digits.val.toNat n := by
  obtain ⟨binary, hbinary, htruncates⟩ := dynamicTruncation_total (hlen secret (Wire.leBytes 8 counter.toNat).reverse)
  have hvalue : (binary.toUInt64 % 10 ^ digits.val.toNat).toNat = binary.toNat % 10 ^ digits.val.toNat := by
    rw [UInt64.toNat_mod, modulus_toNat, UInt32.toNat_toUInt64]
  have hpos : 0 < digits.val.toNat := digits.property.1
  refine ⟨_, binary.toNat, ?_, htruncates, shows_leftpad hpos⟩
  rw [hotpCode]
  simp only [Option.bind_eq_bind, hbinary, Option.bind_some, hvalue]
  rfl

namespace Totp

variable (t : Totp) (time : UInt64)

theorem period_pos : 0 < t.period.val.toNat :=
  Nat.pos_of_ne_zero fun hzero => t.period.property (UInt64.toNat_inj.1 hzero)

theorem remainingAt_toNat : (t.remainingAt time).toNat = t.period.val.toNat - time.toNat % t.period.val.toNat := by
  have hle : time % t.period.val ≤ t.period.val := by
    rw [UInt64.le_iff_toNat_le, UInt64.toNat_mod]
    exact (Nat.mod_lt _ t.period_pos).le
  rw [remainingAt, UInt64.toNat_sub_of_le _ _ hle, UInt64.toNat_mod]

/-- The seconds that are left are those to the next multiple of the period. -/
theorem remainingAt_bounds : 0 < (t.remainingAt time).toNat ∧ (t.remainingAt time).toNat ≤ t.period.val.toNat ∧
    t.period.val.toNat ∣ time.toNat + (t.remainingAt time).toNat := by
  have hlt := Nat.mod_lt time.toNat t.period_pos
  rw [remainingAt_toNat]
  refine ⟨by omega, Nat.sub_le _ _, time.toNat / t.period.val.toNat + 1, ?_⟩
  have hdiv := Nat.div_add_mod time.toNat t.period.val.toNat
  rw [Nat.mul_succ]
  omega

/-- Until then the counter stays where it is. -/
theorem counter_eq {time' : UInt64} (hle : time.toNat ≤ time'.toNat)
    (hlt : time'.toNat < time.toNat + (t.remainingAt time).toNat) : time' / t.period.val = time / t.period.val := by
  have hmod := Nat.mod_lt time.toNat t.period_pos
  rw [remainingAt_toNat] at hlt
  have hdiv := Nat.div_add_mod time.toNat t.period.val.toNat
  refine UInt64.toNat_inj.1 ?_
  rw [UInt64.toNat_div, UInt64.toNat_div]
  refine Nat.div_eq_of_lt_le ?_ ?_
  · rw [Nat.mul_comm]
    omega
  · rw [Nat.mul_comm, Nat.mul_succ]
    omega

end Totp

/-! ## What an entry shows -/

section

variable {ε α β : Type} {x : Except ε α} {e : ε}

theorem bind_ne_error {f : α → Except ε β} (hx : x ≠ .error e) (hf : ∀ a, f a ≠ .error e) : (x >>= f) ≠ .error e := by
  cases x with
  | ok a => exact hf a
  | error e' => exact fun h => hx (congrArg Except.error (Except.error.inj h))

theorem map_ne_error {f : α → β} (hx : x ≠ .error e) : x.map f ≠ .error e := by
  cases x with
  | ok a => exact nofun
  | error e' => exact fun h => hx (congrArg Except.error (Except.error.inj h))

theorem foldlM_ne_error {f : β → α → Except ε β} (hf : ∀ s a, f s a ≠ .error e) (l : List α) (s : β) :
    l.foldlM f s ≠ .error e := by
  induction l generalizing s with
  | nil => exact nofun
  | cons a l ih =>
    rw [List.foldlM_cons]
    exact bind_ne_error (hf s a) ih

end

theorem readDigits_ne_outOfBounds (value : Text) : readDigits value ≠ .error .outOfBounds := by
  unfold readDigits
  split
  · nofun
  · split <;> nofun

theorem readPeriod_ne_outOfBounds (value : Text) : readPeriod value ≠ .error .outOfBounds := by
  unfold readPeriod
  split
  · nofun
  · split <;> nofun

theorem readParameter_ne_outOfBounds (p : OtpAuthParameters) (pair : Text) : readParameter p pair ≠ .error .outOfBounds := by
  unfold readParameter
  dsimp only
  split
  · nofun
  split
  · split <;> nofun
  split
  · exact map_ne_error (readDigits_ne_outOfBounds _)
  split
  · exact map_ne_error (readPeriod_ne_outOfBounds _)
  split
  · exact map_ne_error (percentDecode_ne_outOfBounds _)
  · nofun

/-- No URI is read beyond its bounds. -/
theorem parseOtpauthUri_ne_outOfBounds (uri : Text) : parseOtpauthUri uri ≠ .error .outOfBounds := by
  unfold parseOtpauthUri
  split
  · nofun
  · dsimp only
    split
    · nofun
    · refine bind_ne_error (percentDecode_ne_outOfBounds _) fun label =>
        bind_ne_error (foldlM_ne_error readParameter_ne_outOfBounds _ _) fun p => ?_
      split
      · nofun
      · split
        · nofun
        · split <;> nofun

theorem codeAt_total (hlen : ∀ key message, (hmacSha1 key message).length = 20) (t : Totp) (now : UInt64) :
    ∃ code n, t.codeAt hmacSha1 now = some code ∧
      Truncates (hmacSha1 t.secret (Wire.leBytes 8 (now.toNat / t.period.val.toNat)).reverse) n ∧
      Shows code t.digits.val.toNat n := by
  obtain ⟨code, n, hcode, htruncates, hshows⟩ := hotpCode_total hlen t.secret (now / t.period.val) t.digits
  rw [UInt64.toNat_div] at htruncates
  exact ⟨code, n, hcode, htruncates, hshows⟩

theorem computeCurrentTotp_stored {db : Database} {uuid : Uuid} {t : Totp} {e : Entry} {uri : Value String}
    (he : db.entry uuid = some e) (hfield : e.fields.lookup otpField = some uri) (huri : uri.get.toList = t.toOtpauthUri)
    {now : UInt64} {code : Text} (hcode : t.codeAt hmacSha1 now = some code) :
    computeCurrentTotp hmacSha1 db uuid now = .ok (code, t.remainingAt now) := by
  have hmem : uuid ∈ db.entries := (Database.mem_entries db).2 ⟨e, he⟩
  unfold computeCurrentTotp findEntryId
  rw [if_pos hmem]
  change (match db.entry uuid with
    | none => _
    | some entry => _) = _
  rw [he]
  dsimp only
  rw [hfield]
  dsimp only
  rw [huri, parseOtpauthUri_toOtpauthUri]
  dsimp only
  rw [hcode]

theorem computeCurrentTotp_ne_panicked (hlen : ∀ key message, (hmacSha1 key message).length = 20) (db : Database)
    (uuid : Uuid) (now : UInt64) : computeCurrentTotp hmacSha1 db uuid now ≠ .error .panicked := by
  refine bind_ne_error ?_ fun id => ?_
  · unfold findEntryId
    split <;> nofun
  · split
    · nofun
    split
    · nofun
    split
    · nofun
    · rename_i hparse
      exact absurd hparse (parseOtpauthUri_ne_outOfBounds _)
    · rename_i totp _
      obtain ⟨code, n, hcode, -⟩ := codeAt_total hlen totp now
      rw [hcode]
      nofun

/-- What an entry shows of a configuration that was stored in it: a code of the right width from the HMAC of the period,
until the period is over; and nothing that is stored anywhere makes it panic. -/
theorem stored_totp_shows (hlen : ∀ key message, (hmacSha1 key message).length = 20) (db : Database) (uuid : Uuid) :
    (∀ now, computeCurrentTotp hmacSha1 db uuid now ≠ .error .panicked) ∧
    ∀ (t : Totp) (e : Entry) (uri : Value String), db.entry uuid = some e → e.fields.lookup otpField = some uri →
      uri.get.toList = t.toOtpauthUri → ∀ now : UInt64, ∃ code n left,
        computeCurrentTotp hmacSha1 db uuid now = .ok (code, left) ∧
        Truncates (hmacSha1 t.secret (Wire.leBytes 8 (now.toNat / t.period.val.toNat)).reverse) n ∧
        Shows code t.digits.val.toNat n ∧
        0 < left.toNat ∧ left.toNat ≤ t.period.val.toNat ∧ t.period.val.toNat ∣ now.toNat + left.toNat ∧
        ∀ later : UInt64, now.toNat ≤ later.toNat → later.toNat < now.toNat + left.toNat →
          ∃ left', computeCurrentTotp hmacSha1 db uuid later = .ok (code, left') := by
  refine ⟨computeCurrentTotp_ne_panicked hlen db uuid, fun t e uri he hfield huri now => ?_⟩
  obtain ⟨code, n, hcode, htruncates, hshows⟩ := codeAt_total hlen t now
  obtain ⟨hpos, hle, hdvd⟩ := t.remainingAt_bounds now
  refine ⟨code, n, t.remainingAt now, computeCurrentTotp_stored he hfield huri hcode, htruncates, hshows, hpos, hle, hdvd,
    fun later hfrom huntil => ⟨t.remainingAt later, computeCurrentTotp_stored he hfield huri ?_⟩⟩
  rw [← hcode, Totp.codeAt, Totp.codeAt, t.counter_eq now hfrom huntil]

end

/-! ## A code -/

/-- The HMAC of the key `12345678901234567890` and the counter 1. -/
def smallHmac (_ _ : List UInt8) : List UInt8 :=
  [117, 164, 138, 25, 212, 203, 225, 0, 100, 78, 138, 193, 57, 126, 234, 116, 122, 45, 51, 171]

def smallTotp : Totp :=
  ⟨⟨Text.utf8 "12345678901234567890".toList, by decide⟩, .sha1, ⟨8, by decide⟩, ⟨30, by decide⟩, [], none⟩

/-- A vault with this configuration in an entry. -/
def totpVault : Database where
  config := ⟨.aes 0⟩
  root := 0
  groups := Finmap.singleton 0 { id := 0, parent := none, entries := {1} }
  entries := Finmap.singleton 1 {
    id := 1
    parent := 0
    fields := Finmap.singleton otpField (.«protected» (String.ofList smallTotp.toOtpauthUri)) }

theorem smallTotp_shows : smallTotp.codeAt smallHmac 59 = some "94287082".toList ∧ ∃ code n left,
    computeCurrentTotp smallHmac totpVault 1 59 = .ok (code, left) ∧
      Truncates (smallHmac smallTotp.secret (Wire.leBytes 8 1).reverse) n ∧ Shows code 8 n ∧
      0 < left.toNat ∧ left.toNat ≤ 30 := by
  have hlen : ∀ key message, (smallHmac key message).length = 20 := fun _ _ => rfl
  obtain ⟨code, n, left, hcode, htruncates, hshows, hpos, hle, -⟩ :=
    (stored_totp_shows hlen totpVault 1).2 smallTotp _ _ rfl rfl String.toList_ofList 59
  exact ⟨by decide +kernel, code, n, left, hcode, htruncates, hshows, hpos, hle⟩

end Falach
