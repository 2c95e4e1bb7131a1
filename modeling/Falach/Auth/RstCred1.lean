import Falach.Keepass.Edit
import Falach.Lib.Base64
import Falach.Lib.Loops
import Falach.Lib.Percent
import Mathlib.Data.Vector.Basic
/-!
# Encrypted credentials

RST-CRED-1: a container of a magic number, a salt, a nonce and what was sealed, as a text. Only what is sealed for it
can be opened, so a container that is changed in any way is refused.
-/

namespace Falach.Auth

open Keepass

/-- `AuthError`, of containers and of profiles. -/
inductive AuthError where
  | rstCred1Decryption
  | rstCred1Malformed (reason : Text)
  | homeUnresolvable
  | awsCredentialsFileNotFound (path : Text)
  | awsCredentialsFileReadFailed (path source : Text)
  | awsProfileNotFound (profile path : Text)
  | awsProfileMissingKey (profile key : Text)
deriving DecidableEq

namespace RstCred1

/-- `RC01`. -/
def magic : Bytes := [0x52, 0x43, 0x30, 0x31]

def saltLen : Nat := 16
def nonceLen : Nat := 12
def tagLen : Nat := 16
def headerLen : Nat := magic.length + saltLen + nonceLen

abbrev Salt := List.Vector UInt8 saltLen
abbrev Nonce := List.Vector UInt8 nonceLen

structure Argon2Params where
  mCost : Nat
  tCost : Nat
  pCost : Nat
  outputLen : Nat
deriving DecidableEq

/-- The crates that the container rests on. -/
structure Crates (Key : Type) where
  argon2id : Argon2Params → (password salt : Bytes) → Except Text Key
  chacha20Poly1305 : Aead Key Nonce
  /-- `STANDARD.encode`. -/
  encode : Bytes → Text
  /-- `STANDARD.decode`. -/
  decode : Text → Except Text Bytes

section

variable {Key : Type} (crates : Crates Key)

def deriveKey (masterPassword salt : Bytes) : Except AuthError Key :=
  (crates.argon2id ⟨16384, 3, 1, 32⟩ masterPassword salt).mapError fun e =>
    .rstCred1Malformed ("Argon2id key derivation failed: ".toList ++ e)

/-- What `getrandom::fill` gives, or why it fails. -/
def filled {α : Type} (random : Except Text α) : Except AuthError α :=
  random.mapError fun e => .rstCred1Malformed ("OS entropy source unavailable: ".toList ++ e)

def encryptCredential (plaintext : Text) (masterPassword : Bytes) (randomSalt : Except Text Salt)
    (randomNonce : Except Text Nonce) : Except AuthError Text := do
  let salt ← filled randomSalt
  let nonce ← filled randomNonce
  let key ← deriveKey crates masterPassword salt.toList
  match crates.chacha20Poly1305.encrypt key nonce magic plaintext.utf8 with
  | none => .error (.rstCred1Malformed "ChaCha20-Poly1305 encrypt failed".toList)
  | some ciphertextWithTag => .ok (crates.encode (magic ++ salt.toList ++ nonce.toList ++ ciphertextWithTag))

/-- `bytes[from..to]`, which panics where it is out of range. -/
def slice (bytes : Bytes) (lo hi : Nat) : Except Fault Bytes :=
  if lo ≤ hi ∧ hi ≤ bytes.length then .ok ((bytes.take hi).drop lo) else .error .panic

/-- `try_into`, with the `expect` after it. -/
def toArray (n : Nat) (bytes : Bytes) : Except Fault (List.Vector UInt8 n) :=
  if h : bytes.length = n then .ok ⟨bytes, h⟩ else .error .panic

def tooShort (length : Nat) : AuthError :=
  .rstCred1Malformed ("container too short (".toList ++ Nat.toDigits 10 length ++ " bytes; need at least ".toList ++
    Nat.toDigits 10 (headerLen + tagLen) ++ ")".toList)

/-- The plaintext that was sealed under the password. -/
def openSealed (masterPassword : Bytes) (salt : Salt) (nonce : Nonce) (ciphertextWithTag : Bytes) :
    Except AuthError Text := do
  let key ← deriveKey crates masterPassword salt.toList
  match crates.chacha20Poly1305.decrypt key nonce magic ciphertextWithTag with
  | none => .error .rstCred1Decryption
  | some bytes =>
    match Text.fromUtf8 bytes with
    | none => .error (.rstCred1Malformed "decrypted plaintext is not valid UTF-8".toList)
    | some plaintext => .ok plaintext

/-- What is in a container that is long enough and has the magic number. -/
def openContainer (container masterPassword : Bytes) : Except Fault (Except AuthError Text) := do
  let salt ← toArray saltLen (← slice container magic.length (magic.length + saltLen))
  let nonce ← toArray nonceLen (← slice container (magic.length + saltLen) headerLen)
  let ciphertextWithTag ← slice container headerLen container.length
  return openSealed crates masterPassword salt nonce ciphertextWithTag

/-- A panic is the outer error. -/
def decryptCredential (containerB64 : Text) (masterPassword : Bytes) : Except Fault (Except AuthError Text) :=
  match crates.decode (Text.trim containerB64) with
  | .error e => .ok (.error (.rstCred1Malformed ("base64 decode failed: ".toList ++ e)))
  | .ok container => do
    if container.length < headerLen + tagLen then return .error (tooShort container.length)
    else if (← slice container 0 magic.length) ≠ magic then
      return .error (.rstCred1Malformed "wrong magic bytes (expected `RC01`)".toList)
    else openContainer crates container masterPassword

end

/-! ## The layout -/

variable {Key : Type} {crates : Crates Key} {s : Text} {password ct container : Bytes} {salt : Salt} {nonce : Nonce}

theorem slice_middle (a b c : Bytes) : slice (a ++ b ++ c) a.length (a.length + b.length) = .ok b := by
  have hfits : a.length + b.length ≤ (a ++ b ++ c).length := by
    rw [List.length_append, List.length_append]
    exact Nat.le_add_right _ _
  have htake : (a ++ b ++ c).take (a.length + b.length) = a ++ b := by
    rw [← List.length_append, List.take_left']
    rfl
  rw [slice, if_pos ⟨Nat.le_add_right _ _, hfits⟩, htake, List.drop_left']
  rfl

theorem toArray_toList {n : Nat} (v : List.Vector UInt8 n) : toArray n v.toList = .ok v := dif_pos v.toList_length

/-- The bytes of a container. -/
def layout (salt : Salt) (nonce : Nonce) (ct : Bytes) : Bytes := magic ++ salt.toList ++ nonce.toList ++ ct

theorem openContainer_layout : openContainer crates (layout salt nonce ct) password =
    .ok (openSealed crates password salt nonce ct) := by
  have hsalt : slice (layout salt nonce ct) magic.length (magic.length + saltLen) = .ok salt.toList := by
    have hmiddle := slice_middle magic salt.toList (nonce.toList ++ ct)
    rwa [salt.toList_length, ← List.append_assoc] at hmiddle
  have hnonce : slice (layout salt nonce ct) (magic.length + saltLen) headerLen = .ok nonce.toList := by
    have hmiddle := slice_middle (magic ++ salt.toList) nonce.toList ct
    rwa [List.length_append, salt.toList_length, nonce.toList_length] at hmiddle
  have hct : slice (layout salt nonce ct) headerLen (layout salt nonce ct).length = .ok ct := by
    have hmiddle := slice_middle (magic ++ salt.toList ++ nonce.toList) ct []
    have hhead : (magic ++ salt.toList ++ nonce.toList).length = headerLen := by
      rw [List.length_append, List.length_append, salt.toList_length, nonce.toList_length]
      rfl
    rwa [List.append_nil, ← List.length_append, hhead] at hmiddle
  rw [openContainer, hsalt]
  simp only [bind, Except.bind, toArray_toList, hnonce, hct]
  rfl

/-- A container is laid out as it is assembled, or it is malformed. -/
theorem exists_layout (hlong : headerLen + tagLen ≤ container.length) (hmagic : container.take magic.length = magic) :
    ∃ salt nonce ct, container = layout salt nonce ct ∧ tagLen ≤ ct.length := by
  have hlength : 48 ≤ container.length := hlong
  refine ⟨⟨(container.drop 4).take 16, ?_⟩, ⟨(container.drop 20).take 12, ?_⟩, container.drop 32, ?_, ?_⟩
  · rw [List.length_take, List.length_drop]
    exact Nat.min_eq_left (by omega)
  · rw [List.length_take, List.length_drop]
    exact Nat.min_eq_left (by omega)
  · have htail : (container.drop 20).take 12 ++ container.drop 32 = container.drop 20 := by
      have hsplit := List.take_append_drop 12 (container.drop 20)
      rwa [List.drop_drop] at hsplit
    have hrest : (container.drop 4).take 16 ++ container.drop 20 = container.drop 4 := by
      have hsplit := List.take_append_drop 16 (container.drop 4)
      rwa [List.drop_drop] at hsplit
    calc container = container.take 4 ++ container.drop 4 := (List.take_append_drop 4 container).symm
      _ = magic ++ ((container.drop 4).take 16 ++ ((container.drop 20).take 12 ++ container.drop 32)) := by
        rw [htail, hrest]
        exact congrArg (· ++ container.drop 4) hmagic
      _ = _ := by rw [← List.append_assoc, ← List.append_assoc]; rfl
  · rw [List.length_drop]
    exact Nat.le_sub_of_add_le hlength

/-! ## Opening -/

/-- Every text is refused as malformed, or it is a container. -/
theorem decryptCredential_cases (hbase : Canonical crates.encode crates.decode) (s : Text) (password : Bytes) :
    (∃ reason, decryptCredential crates s password = .ok (.error (.rstCred1Malformed reason))) ∨
    ∃ salt nonce ct, crates.encode (layout salt nonce ct) = Text.trim s ∧
      decryptCredential crates s password = .ok (openSealed crates password salt nonce ct) := by
  unfold decryptCredential
  cases hdecode : crates.decode (Text.trim s) with
  | error e => exact .inl ⟨_, rfl⟩
  | ok container =>
    by_cases hshort : container.length < headerLen + tagLen
    · exact .inl ⟨_, by simp only [if_pos hshort]; rfl⟩
    · have hlong : headerLen + tagLen ≤ container.length := Nat.le_of_not_lt hshort
      have hstart : slice container 0 magic.length = .ok (container.take magic.length) :=
        if_pos ⟨Nat.zero_le _, by unfold headerLen at hlong; omega⟩
      by_cases hmagic : container.take magic.length = magic
      · obtain ⟨salt, nonce, ct, rfl, -⟩ := exists_layout hlong hmagic
        refine .inr ⟨salt, nonce, ct, hbase.decode_eq.1 hdecode, ?_⟩
        simp only [if_neg hshort, hstart, bind, Except.bind, hmagic, ne_eq, not_true_eq_false, if_false,
          openContainer_layout]
      · refine .inl ⟨"wrong magic bytes (expected `RC01`)".toList, ?_⟩
        simp only [if_neg hshort, hstart, bind, Except.bind, ne_eq, hmagic, not_false_eq_true, if_true]
        rfl

/-- A container with a tag is opened. -/
theorem decryptCredential_layout (hbase : Canonical crates.encode crates.decode) (hct : tagLen ≤ ct.length) :
    decryptCredential crates (crates.encode (layout salt nonce ct)) password =
      .ok (openSealed crates password salt nonce ct) := by
  have hdecode : crates.decode (crates.encode (layout salt nonce ct)) = .ok (layout salt nonce ct) :=
    hbase.decode_eq.2 rfl
  have hlength : (layout salt nonce ct).length = headerLen + ct.length := by
    simp only [layout, List.length_append, List.Vector.toList_length]
    rfl
  have hlong : ¬ (layout salt nonce ct).length < headerLen + tagLen := by omega
  have hstart : slice (layout salt nonce ct) 0 magic.length = .ok magic := by
    have hmiddle := slice_middle [] magic (salt.toList ++ nonce.toList ++ ct)
    rwa [List.nil_append, List.length_nil, Nat.zero_add, ← List.append_assoc, ← List.append_assoc] at hmiddle
  rw [decryptCredential, hbase.trim_encode, hdecode]
  simp only [if_neg hlong, hstart, bind, Except.bind, ne_eq, not_true_eq_false, if_false, openContainer_layout]

theorem deriveKey_ok {bytes : Bytes} {key : Key} : deriveKey crates password bytes = .ok key ↔
    crates.argon2id ⟨16384, 3, 1, 32⟩ password bytes = .ok key := by
  rw [deriveKey]
  cases crates.argon2id ⟨16384, 3, 1, 32⟩ password bytes with
  | error e => exact ⟨nofun, nofun⟩
  | ok key' => exact ⟨fun h => congrArg Except.ok (Except.ok.inj h), fun h => congrArg Except.ok (Except.ok.inj h)⟩

theorem openSealed_ok {p : Text} : openSealed crates password salt nonce ct = .ok p ↔
    ∃ key, deriveKey crates password salt.toList = .ok key ∧
      crates.chacha20Poly1305.decrypt key nonce magic ct = some p.utf8 := by
  rw [openSealed, Loop.bind_ok]
  refine exists_congr fun key => and_congr_right fun _ => ?_
  cases hdecrypt : crates.chacha20Poly1305.decrypt key nonce magic ct with
  | none => exact ⟨nofun, nofun⟩
  | some bytes =>
    rw [Option.some_inj]
    cases hread : Text.fromUtf8 bytes with
    | none =>
      simp only [hread]
      refine ⟨nofun, ?_⟩
      rintro rfl
      rw [Text.fromUtf8_utf8] at hread
      cases hread
    | some p' =>
      simp only [hread]
      rw [← Text.utf8_of_fromUtf8 hread, Text.utf8_injective.eq_iff]
      exact ⟨Except.ok.inj, congrArg Except.ok⟩

/-! ## Sealed credentials -/

/-- A call of `encrypt_credential`, with the salt and the nonce that it drew. -/
structure Encryption where
  plaintext : Text
  masterPassword : Bytes
  salt : Salt
  nonce : Nonce

/-- The container that the call assembles. -/
def Encryption.assembled (crates : Crates Key) (e : Encryption) : Except AuthError Text :=
  encryptCredential crates e.plaintext e.masterPassword (.ok e.salt) (.ok e.nonce)

/-- The call has been made, if this is what has been sealed. -/
def Encryption.Made (crates : Crates Key) (Sealed : Key → Nonce → (aad msg : Octets) → Prop) (e : Encryption) : Prop :=
  ∃ key, deriveKey crates e.masterPassword e.salt.toList = .ok key ∧ Sealed key e.nonce magic e.plaintext.utf8

variable {Sealed : Key → Nonce → (aad msg : Octets) → Prop} {e : Encryption}

theorem assembled_ok : e.assembled crates = .ok s ↔ ∃ key, deriveKey crates e.masterPassword e.salt.toList = .ok key ∧
    ∃ ct, crates.chacha20Poly1305.encrypt key e.nonce magic e.plaintext.utf8 = some ct ∧
      crates.encode (layout e.salt e.nonce ct) = s := by
  have hfilled {α : Type} (a : α) : filled (.ok a) = .ok a := rfl
  simp only [Encryption.assembled, encryptCredential, hfilled, Loop.bind_ok, Except.ok.injEq, exists_eq_left']
  refine exists_congr fun key => and_congr_right fun _ => ?_
  cases crates.chacha20Poly1305.encrypt key e.nonce magic e.plaintext.utf8 with
  | none => exact ⟨nofun, nofun⟩
  | some ct =>
    refine ⟨fun h => ⟨ct, rfl, Except.ok.inj h⟩, ?_⟩
    rintro ⟨ct', hct, henc⟩
    cases hct
    exact congrArg Except.ok henc

/-- What is opened has been sealed for the container that it is opened from. -/
theorem openSealed_made {p : Text} (hideal : crates.chacha20Poly1305.Ideal tagLen Sealed)
    (h : openSealed crates password salt nonce ct = .ok p) :
    Encryption.Made crates Sealed ⟨p, password, salt, nonce⟩ ∧
      Encryption.assembled crates ⟨p, password, salt, nonce⟩ = .ok (crates.encode (layout salt nonce ct)) := by
  obtain ⟨key, hkey, hdecrypt⟩ := openSealed_ok.1 h
  obtain ⟨hsealed, hencrypt⟩ := hideal.only hdecrypt
  exact ⟨⟨key, hkey, hsealed⟩, assembled_ok.2 ⟨key, hkey, ct, hencrypt, rfl⟩⟩

/-- Containers are opened to what was put in, and every text that is opened is the container of what comes out: of a
call that has been made, with its password, and with the salt and the nonce in the text. If only one container has
ever been sealed, every other text and every other password is refused. -/
theorem credential_codec (hideal : crates.chacha20Poly1305.Ideal tagLen Sealed)
    (hkeys : ∀ params, KeysDiffer (crates.argon2id params)) (hbase : Canonical crates.encode crates.decode) :
    (∀ e : Encryption, e.Made crates Sealed → ∀ s, e.assembled crates = .ok s →
      decryptCredential crates s e.masterPassword = .ok (.ok e.plaintext)) ∧
    (∀ s password, ∃ result, decryptCredential crates s password = .ok result ∧ ∀ p, result = .ok p →
      ∃ salt nonce ct, crates.decode (Text.trim s) = .ok (layout salt nonce ct) ∧
        Encryption.Made crates Sealed ⟨p, password, salt, nonce⟩ ∧
        encryptCredential crates p password (.ok salt) (.ok nonce) = .ok (Text.trim s)) ∧
    ∀ (e : Encryption) key s, deriveKey crates e.masterPassword e.salt.toList = .ok key → e.assembled crates = .ok s →
      (∀ k n a m, Sealed k n a m → k = key ∧ n = e.nonce ∧ m = e.plaintext.utf8) →
      ∀ t password, Text.trim t ≠ s ∨ password ≠ e.masterPassword →
        ∃ error, decryptCredential crates t password = .ok (.error error) := by
  have opened (t : Text) (password : Bytes) : ∃ result, decryptCredential crates t password = .ok result ∧
      ∀ p, result = .ok p → ∃ salt nonce ct, crates.decode (Text.trim t) = .ok (layout salt nonce ct) ∧
        Encryption.Made crates Sealed ⟨p, password, salt, nonce⟩ ∧
        encryptCredential crates p password (.ok salt) (.ok nonce) = .ok (Text.trim t) := by
    rcases decryptCredential_cases hbase t password with ⟨reason, hrun⟩ | ⟨salt, nonce, ct, htext, hrun⟩
    · exact ⟨_, hrun, nofun⟩
    · refine ⟨_, hrun, fun p hp => ⟨salt, nonce, ct, hbase.decode_eq.2 htext, ?_⟩⟩
      obtain ⟨hmade, hassembled⟩ := openSealed_made hideal hp
      exact ⟨hmade, hassembled.trans (congrArg Except.ok htext)⟩
  refine ⟨fun e hmade s hs => ?_, opened, fun e key s hkey hs hone t password hother => ?_⟩
  · obtain ⟨key, hkey, ct, hencrypt, rfl⟩ := assembled_ok.1 hs
    obtain ⟨key', hkey', hsealed⟩ := hmade
    cases Except.ok.inj (hkey'.symm.trans hkey)
    have hct : tagLen ≤ ct.length := by
      rw [hideal.tagged hencrypt]
      exact Nat.le_add_left _ _
    rw [decryptCredential_layout hbase hct]
    exact congrArg Except.ok (openSealed_ok.2 ⟨key, hkey, hideal.opens hsealed hencrypt⟩)
  · obtain ⟨result, hrun, hok⟩ := opened t password
    cases result with
    | error error => exact ⟨error, hrun⟩
    | ok p =>
      obtain ⟨salt, nonce, ct, -, ⟨key', hkey', hsealed⟩, htext⟩ := hok p rfl
      obtain ⟨rfl, rfl, hp⟩ := hone _ _ _ _ hsealed
      -- only one password and one salt have this key, so the text is the container that was sealed
      obtain ⟨rfl, hsalt⟩ := hkeys _ (deriveKey_ok.1 hkey') (deriveKey_ok.1 hkey)
      obtain rfl := List.Vector.toList_injective hsalt
      obtain rfl := Text.utf8_injective hp
      have hsame : Text.trim t = s := Except.ok.inj (htext.symm.trans hs)
      exact absurd rfl (hother.resolve_left fun hne => hne hsame)

/-! A container for the text `key`, under the password `pw`. -/

def sample : Encryption where
  plaintext := "key".toList
  masterPassword := [0x70, 0x77]
  salt := ⟨[0, 1, 2, 3, 4, 5, 6, 7, 8, 9, 10, 11, 12, 13, 14, 15], rfl⟩
  nonce := ⟨[0, 1, 2, 3, 4, 5, 6, 7, 8, 9, 10, 11], rfl⟩

/-- The ciphertext and the tag of the sample. -/
def sampleSealed : Bytes := [187, 19, 201, 229, 99, 178, 73, 200, 63, 132, 152, 231, 255, 237, 90, 227, 107, 41, 150]

/-- Keys are what they are derived from; the cipher knows the sample only. -/
def sampleCrates : Crates (Bytes × Bytes) where
  argon2id _ password salt := .ok (password, salt)
  chacha20Poly1305 :=
    { encrypt := fun key nonce aad msg =>
        if key = (sample.masterPassword, sample.salt.toList) ∧ nonce = sample.nonce ∧ aad = magic ∧
          msg = sample.plaintext.utf8 then some sampleSealed
        else none
      decrypt := fun key nonce aad ct =>
        if key = (sample.masterPassword, sample.salt.toList) ∧ nonce = sample.nonce ∧ aad = magic ∧
          ct = sampleSealed then
          some sample.plaintext.utf8
        else none }
  encode := Base64.encode
  decode t := (Base64.decode t).elim (.error "Invalid symbol".toList) .ok

/-- The container of the sample is opened, and a change to its first character is refused. -/
theorem credential_codec_sample :
    decryptCredential sampleCrates "UkMwMQABAgMEBQYHCAkKCwwNDg8AAQIDBAUGBwgJCgu7E8nlY7JJyD+EmOf/7VrjaymW".toList
      sample.masterPassword = .ok (.ok "key".toList) ∧
    ∃ error, decryptCredential sampleCrates
      "VkMwMQABAgMEBQYHCAkKCwwNDg8AAQIDBAUGBwgJCgu7E8nlY7JJyD+EmOf/7VrjaymW".toList
      sample.masterPassword = .ok (.error error) := by
  have hencrypt : sampleCrates.chacha20Poly1305.encrypt (sample.masterPassword, sample.salt.toList) sample.nonce magic
      sample.plaintext.utf8 = some sampleSealed := by decide +kernel
  have hdecrypt : sampleCrates.chacha20Poly1305.decrypt (sample.masterPassword, sample.salt.toList) sample.nonce magic
      sampleSealed = some sample.plaintext.utf8 := by decide +kernel
  have hideal : sampleCrates.chacha20Poly1305.Ideal tagLen fun key nonce aad msg =>
      key = (sample.masterPassword, sample.salt.toList) ∧ nonce = sample.nonce ∧ aad = magic ∧
        msg = sample.plaintext.utf8 := by
    refine ⟨fun {k n a m c} h => ?_, fun {k n a m c} h h' => ?_, fun {k n a m c} h => ?_⟩
    · obtain ⟨⟨-, -, -, rfl⟩, hc⟩ := Option.ite_none_right_eq_some.1 h
      rw [← Option.some.inj hc]
      decide +kernel
    · obtain ⟨rfl, rfl, rfl, rfl⟩ := h
      rw [← Option.some.inj (hencrypt.symm.trans h')]
      exact hdecrypt
    · obtain ⟨⟨rfl, rfl, rfl, rfl⟩, hm⟩ := Option.ite_none_right_eq_some.1 h
      rw [← Option.some.inj hm]
      exact ⟨⟨rfl, rfl, rfl, rfl⟩, hencrypt⟩
  have hkeys : ∀ params, KeysDiffer (sampleCrates.argon2id params) := by
    intro params password password' salt salt' key h h'
    exact Prod.mk.inj (Except.ok.inj (h.trans h'.symm))
  have hassembled : sample.assembled sampleCrates =
      .ok "UkMwMQABAgMEBQYHCAkKCwwNDg8AAQIDBAUGBwgJCgu7E8nlY7JJyD+EmOf/7VrjaymW".toList := by decide +kernel
  obtain ⟨hopened, -, hrefused⟩ := credential_codec hideal hkeys (Base64.canonical _)
  refine ⟨hopened sample ⟨_, rfl, rfl, rfl, rfl, rfl⟩ _ hassembled, ?_⟩
  refine hrefused sample _ _ rfl hassembled ?_ _ _ (.inl (by decide +kernel))
  rintro k n a m ⟨rfl, rfl, -, rfl⟩
  exact ⟨rfl, rfl, rfl⟩

end RstCred1

end Falach.Auth
