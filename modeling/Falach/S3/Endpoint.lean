import Falach.Lib.Text
import Mathlib.Algebra.Group.Nat.Defs
/-!
# S3 endpoints

Which endpoint settings are accepted, and the URL of an object.
-/

namespace Falach

inductive EndpointError where
  | missingScheme
  | unsupportedScheme (scheme : String)
  | missingHost
  | userInfoNotAllowed
  | invalidAuthority
  | missingRegion
deriving DecidableEq

/-- The text of the error. -/
def EndpointError.display : EndpointError → String
  | .missingScheme => "endpoint URL is missing the scheme (https:// or http://)"
  | .unsupportedScheme scheme => "endpoint URL scheme `" ++ scheme ++ "` is unsupported (only http/https)"
  | .missingHost => "endpoint URL has no host"
  | .userInfoNotAllowed => "endpoint URL must not contain userinfo (user:password@host)"
  | .invalidAuthority => "endpoint URL must contain only a host and optional port"
  | .missingRegion => "region is required (empty string was supplied)"

inductive AddressingStyle where
  | virtualHosted
  | pathStyle
deriving DecidableEq

structure EndpointConfig where
  endpoint : Option Text
  region : Text
  bucket : Text
  forcePathStyle : Bool

/-- `EndpointBuilder`: the scheme and host, the host alone, and the style the bucket and host lead to. -/
structure EndpointBuilder where
  base : Text
  baseHost : Text
  style : AddressingStyle
deriving DecidableEq

/-! ## Addresses

`str::parse` for `Ipv6Addr` and `u16`. -/

namespace Address

/-- The number that the decimal digits `s` denote. -/
def decimal (s : Text) : Nat := s.foldl (fun n c => 10 * n + (c.toNat - '0'.toNat)) 0

def isHexDigit (c : Char) : Bool := c.isDigit || ('a' ≤ c ∧ c ≤ 'f') || ('A' ≤ c ∧ c ≤ 'F')

theorem isHexDigit_lt {c : Char} (h : isHexDigit c = true) : c.toNat < 128 := by
  simp only [isHexDigit, Bool.or_eq_true, Bool.and_eq_true, decide_eq_true_eq, Char.isDigit, Char.le_def,
    UInt32.le_iff_toNat_le] at h
  change c.val.toNat < 128
  rcases h with (⟨-, h⟩ | ⟨-, h⟩) | ⟨-, h⟩
  · exact h.trans_lt (by decide)
  · exact h.trans_lt (by decide)
  · exact h.trans_lt (by decide)

/-- The text after a group of up to four hexadecimal digits. -/
def hexGroup (s : Text) : Option Text :=
  let digits := s.takeWhile isHexDigit
  if digits = [] ∨ 4 < digits.length then none else some (s.drop digits.length)

/-- The text after a decimal byte, which has no leading zero. -/
def decimalByte (s : Text) : Option Text :=
  let digits := s.takeWhile Char.isDigit
  if digits = [] ∨ 3 < digits.length ∨ (digits.head? = some '0' ∧ 1 < digits.length) ∨ 255 < decimal digits then none
  else some (s.drop digits.length)

/-- The text after the part that `inner` reads; all but the first part follow a separator. -/
def separated (separator : Char) (index : Nat) (inner : Text → Option Text) (s : Text) : Option Text :=
  if index = 0 then inner s
  else match s with
    | c :: s => if c = separator then inner s else none
    | [] => none

def ipv4 (s : Text) : Option Text := do
  let s ← separated '.' 0 decimalByte s
  let s ← separated '.' 1 decimalByte s
  let s ← separated '.' 2 decimalByte s
  separated '.' 3 decimalByte s

/-- The groups at the start of `s`, with `left` of `limit` still to come: how many they are, whether they end with an
IPv4 address, and the text after them. -/
def readGroups (limit : Nat) : Nat → Text → Nat × Bool × Text
  | 0, s => (limit, false, s)
  | left + 1, s =>
    let i := limit - (left + 1)
    match if i < limit - 1 then separated ':' i ipv4 s else none with
    | some s => (i + 2, true, s)
    | none =>
      match separated ':' i hexGroup s with
      | some s => readGroups limit left s
      | none => (i, false, s)

def isIpv6 (s : Text) : Bool :=
  let (headSize, headIpv4, s) := readGroups 8 8 s
  if headSize = 8 then s = []
  else if headIpv4 then false
  else match s with
    | ':' :: ':' :: s => (readGroups (7 - headSize) (7 - headSize) s).2.2 = []
    | _ => false

/-- A `u16`, with a sign or without. -/
def isU16 (s : Text) : Bool :=
  let digits := match s with
    | '+' :: digits => digits
    | digits => digits
  digits ≠ [] ∧ digits.all Char.isDigit ∧ decimal digits < 2 ^ 16

end Address

/-! ## Endpoints -/

/-- `split_scheme`. -/
def splitScheme (s : Text) : Except EndpointError (Text × Text) :=
  match Text.splitOnce "://".toList s with
  | none => .error .missingScheme
  | some (scheme, rest) =>
    if Text.lower scheme = "https".toList then .ok ("https".toList, rest)
    else if Text.lower scheme = "http".toList then .ok ("http".toList, rest)
    else .error (.unsupportedScheme (String.ofList scheme))

/-- The port of `authority`, if its host is well formed and has one. -/
def portOf (authority : Text) : Except EndpointError (Option Text) :=
  match authority with
  | '[' :: bracketed =>
    match Text.splitOnce [']'] bracketed with
    | none => .error .invalidAuthority
    | some (host, remainder) =>
      if host = [] ∨ ¬ Address.isIpv6 host then .error .invalidAuthority
      else match remainder with
        | [] => .ok none
        | ':' :: port => .ok (some port)
        | _ => .error .invalidAuthority
  | _ =>
    match Text.rsplitOnce ':' authority with
    | some (host, port) => if host = [] ∨ ':' ∈ host then .error .invalidAuthority else .ok (some port)
    | none => if authority = [] then .error .missingHost else .ok none

/-- `validate_authority`. -/
def validateAuthority (authority : Text) : Except EndpointError Unit :=
  if authority.any Text.isWhitespace then .error .invalidAuthority
  else do
    match ← portOf authority with
    | none => return ()
    | some port => if port = [] ∨ ¬ Address.isU16 port then .error .invalidAuthority else return ()

/-- `canonicalize_endpoint`. -/
def canonicalizeEndpoint (s : Text) : Text :=
  let lower := Text.lower s
  let noScheme := ((lower.dropPrefix? "https://".toList).or (lower.dropPrefix? "http://".toList)).getD lower
  Text.trimEnd '/' noScheme

namespace EndpointBuilder

/-- The endpoint that stands for none: the one of AWS for the region. -/
def awsEndpoint (region : Text) : Text := "https://s3.".toList ++ region ++ ".amazonaws.com".toList

/-- `EndpointBuilder::from_config`. -/
def fromConfig (cfg : EndpointConfig) : Except EndpointError EndpointBuilder :=
  if cfg.region = [] then .error .missingRegion
  else do
    let (scheme, rest) ← splitScheme (cfg.endpoint.getD (awsEndpoint cfg.region))
    let baseHost := Text.trimEnd '/' rest
    if baseHost = [] then .error .missingHost
    else if '@' ∈ baseHost then .error .userInfoNotAllowed
    else if '/' ∈ baseHost ∨ '?' ∈ baseHost ∨ '#' ∈ baseHost then .error .invalidAuthority
    else do
      validateAuthority baseHost
      let style :=
        if cfg.forcePathStyle ∨ '.' ∈ cfg.bucket ∨ baseHost.head? = some '[' then .pathStyle else .virtualHosted
      return ⟨scheme ++ "://".toList ++ baseHost, baseHost, style⟩

/-- `scheme_of` the base. -/
def scheme (b : EndpointBuilder) : Text := ((Text.splitOnce "://".toList b.base).map Prod.fst).getD "https".toList

def objectUrl (b : EndpointBuilder) (bucket key : Text) : Text :=
  let path := Text.trimStart '/' key
  match b.style with
  | .virtualHosted => b.scheme ++ "://".toList ++ bucket ++ ".".toList ++ b.baseHost ++ "/".toList ++ path
  | .pathStyle => b.base ++ "/".toList ++ bucket ++ "/".toList ++ path

end EndpointBuilder

end Falach
