import Falach.Lib.Base32
import Falach.Lib.Loops
/-!
# `otpauth` URIs

The configuration of one-time codes and the URI that stores it. The URI is cut at `?`, `/`, `&` and `=` before its
parts are decoded, and none of these is left in an encoded part: what is written is read back as it was.
-/

namespace Falach

def defaultPeriod : UInt64 := 30

def defaultDigits : UInt32 := 6

def maxDigits : UInt32 := 10

inductive TotpAlgorithm where
  | sha1
deriving DecidableEq

def TotpAlgorithm.asUriStr : TotpAlgorithm → Text
  | .sha1 => "SHA1".toList

inductive OtpAuthUriError where
  | notAnOtpAuthUri
  | unsupportedType
  | missingSecret
  | invalidSecret
  | unsupportedAlgorithm
  | invalidParameter (name : String)
  | invalidEncoding
deriving DecidableEq

/-- How a URI is given up: with an error, or at an index that is out of bounds. -/
inductive OtpAuthStop where
  | error (e : OtpAuthUriError)
  | outOfBounds
deriving DecidableEq

/-- The digits of a code. -/
abbrev Digits := { n : UInt32 // 1 ≤ n ∧ n ≤ maxDigits }

/-- The seconds that a code lasts. -/
abbrev Period := { n : UInt64 // n ≠ 0 }

theorem defaultDigits_range : 1 ≤ defaultDigits ∧ defaultDigits ≤ maxDigits := by decide

theorem defaultPeriod_ne : defaultPeriod ≠ 0 := by decide

structure Totp where
  secret : { bytes : List UInt8 // bytes ≠ [] }
  algorithm : TotpAlgorithm
  digits : Digits
  period : Period
  label : Text
  issuer : Option Text
deriving DecidableEq

/-! ## Percent-encoding -/

/-- The byte at an index. -/
def readByte (bytes : List UInt8) (i : Nat) : Except OtpAuthStop UInt8 :=
  match bytes[i]? with
  | some b => .ok b
  | none => .error .outOfBounds

/-- `ok_or(InvalidEncoding)`. -/
def orInvalidEncoding {α : Type} : Option α → Except OtpAuthStop α
  | some a => .ok a
  | none => .error (.error .invalidEncoding)

/-- The loop of `percent_decode`. -/
def percentDecodeLoop (bytes : List UInt8) (i : Nat) (out : List UInt8) : Except OtpAuthStop (List UInt8) :=
  if i < bytes.length then do
    let byte ← readByte bytes i
    if byte = Percent.sign then
      if bytes.length ≤ i + 2 then .error (.error .invalidEncoding)
      else
        let hi ← orInvalidEncoding (Percent.hexNibble (← readByte bytes (i + 1)))
        let lo ← orInvalidEncoding (Percent.hexNibble (← readByte bytes (i + 2)))
        percentDecodeLoop bytes (i + 3) (out ++ [(hi <<< 4) ||| lo])
    else percentDecodeLoop bytes (i + 1) (out ++ [byte])
  else .ok out
termination_by bytes.length - i

def percentDecode (input : Text) : Except OtpAuthStop Text := do
  orInvalidEncoding (Text.fromUtf8 (← percentDecodeLoop input.utf8 0 []))

def percentEncode (input : Text) : Text := Percent.encodeText input

/-! ## URIs -/

def withoutSign : Text → Text
  | '+' :: digits => digits
  | digits => digits

/-- A number below `bound`, with a sign or without. -/
def parseUnsigned (bound : Nat) (s : Text) : Option Nat :=
  let digits := withoutSign s
  if digits ≠ [] ∧ digits.all Char.isDigit ∧
    Nat.ofDigitChars 10 digits 0 < bound then some (Nat.ofDigitChars 10 digits 0)
  else none

/-- What the parameters of a URI have set so far. -/
structure OtpAuthParameters where
  secretB32 : Option Text := none
  algorithm : TotpAlgorithm := .sha1
  digits : Digits := ⟨defaultDigits, defaultDigits_range⟩
  period : Period := ⟨defaultPeriod, defaultPeriod_ne⟩
  issuer : Option Text := none

def readDigits (value : Text) : Except OtpAuthStop Digits :=
  match parseUnsigned (2 ^ 32) value with
  | none => .error (.error (.invalidParameter "digits"))
  | some n =>
    if h : 1 ≤ UInt32.ofNat n ∧ UInt32.ofNat n ≤ maxDigits then .ok ⟨.ofNat n, h⟩
    else .error (.error (.invalidParameter "digits"))

def readPeriod (value : Text) : Except OtpAuthStop Period :=
  match parseUnsigned (2 ^ 64) value with
  | none => .error (.error (.invalidParameter "period"))
  | some n => if h : UInt64.ofNat n ≠ 0 then .ok ⟨.ofNat n, h⟩ else .error (.error (.invalidParameter "period"))

/-- The step of the loop over the parameters. -/
def readParameter (p : OtpAuthParameters) (pair : Text) : Except OtpAuthStop OtpAuthParameters :=
  let (key, value) := (Text.splitOnce ['='] pair).getD (pair, [])
  if key = "secret".toList then .ok { p with secretB32 := some value }
  else if key = "algorithm".toList then
    if value.lower ≠ "sha1".toList then .error (.error .unsupportedAlgorithm) else .ok { p with algorithm := .sha1 }
  else if key = "digits".toList then (readDigits value).map fun digits => { p with digits }
  else if key = "period".toList then (readPeriod value).map fun period => { p with period }
  else if key = "issuer".toList then (percentDecode value).map fun issuer => { p with issuer := some issuer }
  else .ok p

def parseOtpauthUri (uri : Text) : Except OtpAuthStop Totp :=
  match uri.dropPrefix? "otpauth://".toList with
  | none => .error (.error .notAnOtpAuthUri)
  | some rest => do
    let (hostAndPath, query) := (Text.splitOnce ['?'] rest).getD (rest, [])
    let (host, labelPath) := (Text.splitOnce ['/'] hostAndPath).getD (hostAndPath, [])
    if host.lower ≠ "totp".toList then .error (.error .unsupportedType)
    else
      let label ← percentDecode labelPath
      let p ← ((query.splitOn '&').filter fun pair => pair ≠ []).foldlM readParameter {}
      match p.secretB32 with
      | none => .error (.error .missingSecret)
      | some secretB32 =>
        match (Base32.decode false secretB32).or (Base32.decode true secretB32) with
        | none => .error (.error .invalidSecret)
        | some secret =>
          if h : secret ≠ [] then .ok ⟨⟨secret, h⟩, p.algorithm, p.digits, p.period, label, p.issuer⟩
          else .error (.error .invalidSecret)

/-- `to_otpauth_uri`; what is left out is what a URI without it sets. -/
def Totp.toOtpauthUri (t : Totp) : Text :=
  "otpauth://totp/".toList ++ percentEncode t.label ++ "?secret=".toList ++ Base32.encode t.secret ++
    (match t.issuer with
      | some issuer => "&issuer=".toList ++ percentEncode issuer
      | none => []) ++
    (if t.algorithm ≠ .sha1 then "&algorithm=".toList ++ t.algorithm.asUriStr else []) ++
    (if t.digits.val ≠ defaultDigits then "&digits=".toList ++ Nat.toDigits 10 t.digits.val.toNat else []) ++
    if t.period.val ≠ defaultPeriod then "&period=".toList ++ Nat.toDigits 10 t.period.val.toNat else []

variable {s : Text} {t : Totp} {p : OtpAuthParameters}

/-! ## What is encoded is decoded -/

theorem readByte_of_lt {bytes : List UInt8} {i : Nat} (h : i < bytes.length) : readByte bytes i = .ok bytes[i] := by
  rw [readByte, List.getElem?_eq_getElem h]

/-- The loop decodes the rest of the bytes, and reads no byte that is not there. -/
theorem percentDecodeLoop_eq (bytes : List UInt8) (i : Nat) (out : List UInt8) :
    percentDecodeLoop bytes i out = (orInvalidEncoding (Percent.decode (bytes.drop i))).map fun rest =>
      out ++ rest := by
  induction i, out using percentDecodeLoop.induct bytes with
  | case1 i out hi ihEscape ihPlain =>
    rw [percentDecodeLoop, if_pos hi, readByte_of_lt hi, List.drop_eq_getElem_cons hi]
    change (if bytes[i] = Percent.sign then _ else percentDecodeLoop bytes (i + 1) (out ++ [bytes[i]])) = _
    by_cases hsign : bytes[i] = Percent.sign
    · rw [if_pos hsign]
      by_cases hshort : bytes.length ≤ i + 2
      · have hfew : (bytes.drop (i + 1)).length < 2 := by
          rw [List.length_drop]
          omega
        rw [if_pos hshort, Percent.decode_escape_short hfew hsign]
        rfl
      · have h₁ : i + 1 < bytes.length := by omega
        have h₂ : i + 2 < bytes.length := by omega
        rw [if_neg hshort, readByte_of_lt h₁, readByte_of_lt h₂, List.drop_eq_getElem_cons h₁,
          List.drop_eq_getElem_cons h₂, hsign, Percent.decode_escape]
        change (do
          let hi ← orInvalidEncoding (Percent.hexNibble bytes[i + 1])
          let lo ← orInvalidEncoding (Percent.hexNibble bytes[i + 2])
          percentDecodeLoop bytes (i + 3) (out ++ [(hi <<< 4) ||| lo])) = _
        rw [Percent.unescape]
        cases Percent.hexNibble bytes[i + 1] with
        | none => rfl
        | some hi =>
          cases Percent.hexNibble bytes[i + 2] with
          | none => rfl
          | some lo =>
            change percentDecodeLoop bytes (i + 3) (out ++ [hi <<< 4 ||| lo]) =
              (orInvalidEncoding ((Percent.decode (bytes.drop (i + 3))).map ((hi <<< 4 ||| lo) :: ·))).map _
            rw [ihEscape hshort]
            cases Percent.decode (bytes.drop (i + 3)) with
            | none => rfl
            | some rest => exact congrArg Except.ok (List.append_assoc _ _ _)
    · rw [if_neg hsign, Percent.decode_cons hsign, ihPlain]
      cases Percent.decode (bytes.drop (i + 1)) with
      | none => rfl
      | some rest => exact congrArg Except.ok (List.append_assoc _ _ _)
  | case2 i out hi =>
    rw [percentDecodeLoop, if_neg hi, List.drop_eq_nil_of_le (by omega)]
    exact congrArg Except.ok (List.append_nil out).symm

theorem percentDecode_eq (s : Text) :
    percentDecode s = orInvalidEncoding ((Percent.decode s.utf8).bind Text.fromUtf8) := by
  rw [percentDecode, percentDecodeLoop_eq, List.drop_zero]
  cases Percent.decode s.utf8 <;> rfl

theorem percentDecode_percentEncode (s : Text) : percentDecode (percentEncode s) = .ok s := by
  rw [percentDecode_eq, percentEncode, Percent.utf8_encodeText, Percent.decode_encode (by decide), Option.bind_some,
    Text.fromUtf8_utf8]
  rfl

theorem percentDecode_ne_outOfBounds (s : Text) : percentDecode s ≠ .error .outOfBounds := by
  rw [percentDecode_eq]
  cases (Percent.decode s.utf8).bind Text.fromUtf8 <;> nofun

/-! ## What is written is read -/

theorem parseUnsigned_toDigits {bound n : Nat} (h : n < bound) : parseUnsigned bound (Nat.toDigits 10 n) = some n := by
  have hdigits : ∀ c ∈ Nat.toDigits 10 n, c.isDigit := fun c hc => Nat.isDigit_of_mem_toDigits (by omega) (by omega) hc
  have hsign : withoutSign (Nat.toDigits 10 n) = Nat.toDigits 10 n := by
    unfold withoutSign
    split
    · rename_i rest hrest
      exact absurd (hdigits '+' (hrest ▸ List.mem_cons_self)) (by decide)
    · rfl
  have hvalue : Nat.ofDigitChars 10 (Nat.toDigits 10 n) 0 < bound := by rwa [Nat.ofDigitChars_ten_toDigits]
  simp only [parseUnsigned, hsign]
  rw [if_pos ⟨Nat.toDigits_ne_nil, List.all_eq_true.2 hdigits, hvalue⟩, Nat.ofDigitChars_ten_toDigits]

theorem readDigits_toDigits (digits : Digits) : readDigits (Nat.toDigits 10 digits.val.toNat) = .ok digits := by
  rw [readDigits, parseUnsigned_toDigits digits.val.toNat_lt]
  simp only [UInt32.ofNat_toNat]
  exact dif_pos digits.property

theorem readPeriod_toDigits (period : Period) : readPeriod (Nat.toDigits 10 period.val.toNat) = .ok period := by
  rw [readPeriod, parseUnsigned_toDigits period.val.toNat_lt]
  simp only [UInt64.ofNat_toNat]
  exact dif_pos period.property

/-- A parameter of a URI, by its key and its value. -/
def otpAuthPair (key value : Text) : Text := key ++ '=' :: value

/-- The parameters that a URI is written with. -/
def Totp.pairs (t : Totp) : List Text :=
  otpAuthPair "secret".toList (Base32.encode t.secret) ::
    (t.issuer.map fun issuer => otpAuthPair "issuer".toList (percentEncode issuer)).toList ++
    (if t.digits.val ≠ defaultDigits then [otpAuthPair "digits".toList (Nat.toDigits 10 t.digits.val.toNat)] else []) ++
    if t.period.val ≠ defaultPeriod then [otpAuthPair "period".toList (Nat.toDigits 10 t.period.val.toNat)] else []

theorem intercalate_cons_eq_flatMap (c : Char) (s : Text) (pairs : List Text) :
    [c].intercalate (s :: pairs) = s ++ pairs.flatMap (c :: ·) := by
  induction pairs generalizing s with
  | nil => simp
  | cons pair pairs ih => rw [List.intercalate_cons_cons, ih]; simp

theorem toOtpauthUri_eq (t : Totp) : t.toOtpauthUri =
    "otpauth://".toList ++ (("totp".toList ++ '/' :: percentEncode t.label) ++ '?' :: ['&'].intercalate t.pairs) := by
  have issuer : (match t.issuer with
      | some issuer => "&issuer=".toList ++ percentEncode issuer
      | none => []) =
      (t.issuer.map fun issuer => otpAuthPair "issuer".toList (percentEncode issuer)).toList.flatMap ('&' :: ·) := by
    cases t.issuer with
    | none => rfl
    | some issuer => simp [otpAuthPair]
  have algorithm : (if t.algorithm ≠ .sha1 then "&algorithm=".toList ++ t.algorithm.asUriStr else []) = [] := by
    cases t.algorithm
    rfl
  have digits : (if t.digits.val ≠ defaultDigits then "&digits=".toList ++ Nat.toDigits 10 t.digits.val.toNat else []) =
      (if t.digits.val ≠ defaultDigits then [otpAuthPair "digits".toList (Nat.toDigits 10 t.digits.val.toNat)]
        else []).flatMap ('&' :: ·) := by
    split
    · simp [otpAuthPair]
    · rfl
  have period : (if t.period.val ≠ defaultPeriod then "&period=".toList ++ Nat.toDigits 10 t.period.val.toNat else []) =
      (if t.period.val ≠ defaultPeriod then [otpAuthPair "period".toList (Nat.toDigits 10 t.period.val.toNat)]
        else []).flatMap ('&' :: ·) := by
    split
    · simp [otpAuthPair]
    · rfl
  unfold Totp.toOtpauthUri Totp.pairs
  simp only [issuer, algorithm, digits, period, List.cons_append, intercalate_cons_eq_flatMap, List.flatMap_append]
  have start : "otpauth://totp/".toList = "otpauth://".toList ++ "totp".toList ++ ['/'] := by simp
  have query : "?secret=".toList = ['?'] ++ "secret".toList ++ ['='] := by simp
  have secret : otpAuthPair "secret".toList (Base32.encode t.secret) = "secret".toList ++ ['='] ++
    Base32.encode t.secret :=
    List.append_cons _ _ _
  rw [start, query, secret]
  -- what the words are does not matter
  generalize "otpauth://".toList = scheme, "totp".toList = host, "secret".toList = key
  simp only [List.append_assoc, List.cons_append, List.nil_append]

theorem separator_notMem_percentEncode {c : Char} (hc : c ∈ ['/', '?', '&', '=', '#']) (s : Text) :
    c ∉ percentEncode s :=
  Percent.separator_notMem_encodeText hc s

theorem ampersand_notMem_toDigits (n : Nat) : '&' ∉ Nat.toDigits 10 n := fun h => by
  have hdigit := Nat.isDigit_of_mem_toDigits (by omega) (by omega) h
  exact absurd hdigit (by decide)

/-- No parameter is empty or holds the character between the parameters. -/
theorem separator_notMem_pairs {pair : Text} (h : pair ∈ t.pairs) : '&' ∉ pair ∧ pair ≠ [] := by
  have ofPair : ∀ key value, '&' ∉ key → '&' ∉ value → '&' ∉ otpAuthPair key value ∧ otpAuthPair key value ≠ [] := by
    intro key value hkey hvalue
    refine ⟨?_, List.append_ne_nil_of_right_ne_nil _ (List.cons_ne_nil _ _)⟩
    simp [otpAuthPair, hkey, hvalue]
  have hsecret : '&' ∉ Base32.encode t.secret := fun h => absurd (Base32.mem_encode h) (by decide)
  simp only [Totp.pairs, List.mem_append, List.mem_cons, Option.mem_toList, Option.map_eq_some_iff] at h
  rcases h with ((rfl | ⟨issuer, -, rfl⟩) | h) | h
  · exact ofPair _ _ (by decide) hsecret
  · exact ofPair _ _ (by decide) (separator_notMem_percentEncode (by decide) issuer)
  · split at h
    · rw [List.mem_singleton.1 h]
      exact ofPair _ _ (by decide) (ampersand_notMem_toDigits _)
    · cases h
  · split at h
    · rw [List.mem_singleton.1 h]
      exact ofPair _ _ (by decide) (ampersand_notMem_toDigits _)
    · cases h

section
variable (p : OtpAuthParameters)

theorem readParameter_secret (value : Text) :
    readParameter p (otpAuthPair "secret".toList value) = .ok { p with secretB32 := some value } := by
  rw [readParameter, otpAuthPair, Text.splitOnce_append_cons (by decide)]
  rfl

theorem readParameter_issuer (issuer : Text) :
    readParameter p (otpAuthPair "issuer".toList (percentEncode issuer)) = .ok { p with issuer := some issuer } := by
  rw [readParameter, otpAuthPair, Text.splitOnce_append_cons (by decide)]
  change (percentDecode (percentEncode issuer)).map _ = _
  rw [percentDecode_percentEncode]
  rfl

theorem readParameter_digits (digits : Digits) :
    readParameter p (otpAuthPair "digits".toList (Nat.toDigits 10 digits.val.toNat)) = .ok { p with digits } := by
  rw [readParameter, otpAuthPair, Text.splitOnce_append_cons (by decide)]
  change (readDigits _).map _ = _
  rw [readDigits_toDigits]
  rfl

theorem readParameter_period (period : Period) :
    readParameter p (otpAuthPair "period".toList (Nat.toDigits 10 period.val.toNat)) = .ok { p with period } := by
  rw [readParameter, otpAuthPair, Text.splitOnce_append_cons (by decide)]
  change (readPeriod _).map _ = _
  rw [readPeriod_toDigits]
  rfl

end

theorem readParameters_pairs (t : Totp) :
    t.pairs.foldlM readParameter {} = .ok ⟨some (Base32.encode t.secret), .sha1, t.digits, t.period, t.issuer⟩ := by
  have issuer (p : OtpAuthParameters) (hp : p.issuer = none) :
      (t.issuer.map fun issuer => otpAuthPair "issuer".toList (percentEncode issuer)).toList.foldlM readParameter p =
        .ok { p with issuer := t.issuer } := by
    cases t.issuer with
    | none => exact congrArg (fun issuer => Except.ok { p with issuer }) hp
    | some issuer => exact Loop.foldlM_cons_ok.2 ⟨_, readParameter_issuer p issuer, rfl⟩
  have digits (p : OtpAuthParameters) (hp : p.digits.val = defaultDigits) :
      (if t.digits.val ≠ defaultDigits then [otpAuthPair "digits".toList (Nat.toDigits 10 t.digits.val.toNat)]
        else []).foldlM readParameter p = .ok { p with digits := t.digits } := by
    split
    · exact Loop.foldlM_cons_ok.2 ⟨_, readParameter_digits p t.digits, rfl⟩
    · rename_i hdefault
      exact congrArg (fun digits => Except.ok { p with digits }) (Subtype.ext (hp.trans (not_not.1 hdefault).symm))
  have period (p : OtpAuthParameters) (hp : p.period.val = defaultPeriod) :
      (if t.period.val ≠ defaultPeriod then [otpAuthPair "period".toList (Nat.toDigits 10 t.period.val.toNat)]
        else []).foldlM readParameter p = .ok { p with period := t.period } := by
    split
    · exact Loop.foldlM_cons_ok.2 ⟨_, readParameter_period p t.period, rfl⟩
    · rename_i hdefault
      exact congrArg (fun period => Except.ok { p with period }) (Subtype.ext (hp.trans (not_not.1 hdefault).symm))
  have first := Loop.foldlM_cons_ok.2 ⟨_, readParameter_secret {} (Base32.encode t.secret), issuer _ rfl⟩
  exact Loop.foldlM_append_ok.2 ⟨_, Loop.foldlM_append_ok.2 ⟨_, first, digits _ rfl⟩, period _ rfl⟩

/-- The last step of the parser, for any decoder: a secret that decodes to some bytes is accepted. -/
theorem secret_accepted {decode : Bool → Text → Option (List UInt8)} (p : OtpAuthParameters) {label secretB32 : Text}
    {secret : List UInt8} (hp : p.secretB32 = some secretB32) (hsecret : decode false secretB32 = some secret)
    (hne : secret ≠ []) :
    (match p.secretB32 with
      | none => .error (.error .missingSecret)
      | some secretB32 =>
        match (decode false secretB32).or (decode true secretB32) with
        | none => .error (.error .invalidSecret)
        | some secret =>
          if h : secret ≠ [] then .ok ⟨⟨secret, h⟩, p.algorithm, p.digits, p.period, label, p.issuer⟩
          else .error (.error .invalidSecret) : Except OtpAuthStop Totp) =
      .ok ⟨⟨secret, hne⟩, p.algorithm, p.digits, p.period, label, p.issuer⟩ := by
  rw [hp]
  simp only [hsecret, Option.some_or]
  exact dif_pos hne

theorem parseOtpauthUri_toOtpauthUri (t : Totp) : parseOtpauthUri t.toOtpauthUri = .ok t := by
  have hscheme : t.toOtpauthUri.dropPrefix? "otpauth://".toList =
      some (("totp".toList ++ '/' :: percentEncode t.label) ++ '?' :: ['&'].intercalate t.pairs) := by
    rw [toOtpauthUri_eq, List.dropPrefix?_append_of_beq _ (by decide)]
  have hquery : '?' ∉ "totp".toList ++ '/' :: percentEncode t.label := by
    simp [separator_notMem_percentEncode]
  have hhost : '/' ∉ "totp".toList := by decide
  have hsplit : (['&'].intercalate t.pairs).splitOn '&' = t.pairs :=
    List.splitOn_intercalate _ (fun pair h => (separator_notMem_pairs h).1) (List.cons_ne_nil _ _)
  have hfilter : t.pairs.filter (fun pair => pair ≠ []) = t.pairs :=
    List.filter_eq_self.2 fun pair h => by simpa using (separator_notMem_pairs h).2
  have hlower : ¬ Text.lower "totp".toList ≠ "totp".toList := by simp [Text.lower]
  unfold parseOtpauthUri
  rw [hscheme]
  simp only [Text.splitOnce_append_cons hquery, Text.splitOnce_append_cons hhost, Option.getD_some]
  rw [if_neg hlower, percentDecode_percentEncode, hsplit, hfilter]
  refine Loop.bind_ok.2 ⟨_, rfl, Loop.bind_ok.2 ⟨_, readParameters_pairs t, ?_⟩⟩
  have accepted := @secret_accepted Base32.decode ⟨some (Base32.encode t.secret), .sha1, t.digits, t.period, t.issuer⟩
    t.label _ _ rfl (@Base32.decode_encode false t.secret) t.secret.property
  refine accepted.trans ?_
  obtain ⟨secret, ⟨⟩, digits, period, label, issuer⟩ := t
  rfl

/-- A URI that is parsed and written is parsed to what it was parsed to before; every text comes back from its
percent-encoding, and no text is read beyond its bounds. -/
theorem otpauth_uri_round_trip :
    (∀ uri t, parseOtpauthUri uri = .ok t → parseOtpauthUri t.toOtpauthUri = .ok t) ∧
      (∀ s, percentDecode (percentEncode s) = .ok s) ∧ ∀ s, percentDecode s ≠ .error .outOfBounds :=
  ⟨fun _ t _ => parseOtpauthUri_toOtpauthUri t, percentDecode_percentEncode, percentDecode_ne_outOfBounds⟩

end Falach
