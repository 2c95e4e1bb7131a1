import Falach.Format.Header
import Falach.Lib.Base64
import Falach.Lib.BlockModes
import Falach.Vault.Create
/-!
# The keys of a file

What the master password and the key file are made into, and the keys that a file is encrypted and checked with. Hashes,
ciphers and compression are those of other crates.
-/

namespace Keepass

open Wire Cipher

namespace Kdbx4

/-! ## Cryptography -/

/-- `argon2::Variant`, of those the format has. -/
inductive Argon2Variant where
  | argon2d
  | argon2id
deriving DecidableEq

/-- `argon2::Config`; the length of the hash is always 32. -/
structure Argon2Config where
  lanes : UInt32
  memCost : UInt32
  timeCost : UInt32
  variant : Argon2Variant
  version : Argon2Version
deriving DecidableEq

/-- An event of a reader of XML; a text may not be decodable. -/
inductive XmlEvent where
  | start (name : String)
  | stop
  | text (s : Option String)
  | other
  | error

structure Crypto where
  sha256 : Bytes → Bytes
  sha512 : Bytes → Bytes
  hmac : (key message : Bytes) → Bytes
  aes256 : BlockCipher
  twofish : BlockCipher
  chaCha20 : (key nonce : Bytes) → Nat → UInt8
  salsa20 : (key nonce : Bytes) → Nat → UInt8
  argon2 : Argon2Config → (password salt : Bytes) → Option Bytes
  gzip : Bytes → Bytes
  gunzip : Bytes → Option Bytes
  -- up to the end of the document, or to the first error
  xmlEvents : Bytes → List XmlEvent

/-- What is relied on: the lengths of hashes, that blocks are permuted, and that what comes after compressed bytes is not
read. -/
structure Crypto.Lawful (c : Crypto) : Prop where
  length_sha256 : ∀ m, (c.sha256 m).length = 32
  length_sha512 : ∀ m, (c.sha512 m).length = 64
  length_hmac : ∀ k m, (c.hmac k m).length = 32
  aes256 : c.aes256.Lawful 32 16
  twofish : c.twofish.Lawful 32 16
  gunzip_gzip : ∀ m rest, c.gunzip (c.gzip m ++ rest) = some m
  gunzip_nil : c.gunzip [] = none

inductive CryptographyError where
  | invalidLength
  | invalidPadding
  | argon2
deriving DecidableEq

inductive DatabaseKeyError where
  | emptyKey
  | incorrectKey
deriving DecidableEq

/-! ## Key elements -/

/-- What the loop of `parse_xml_keyfile` has found; the innermost tag is the first one. -/
structure XmlKeyfile where
  tagStack : List String := []
  keyVersion : Option String := none
  keyValue : Option String := none

def XmlKeyfile.read (found : XmlKeyfile) : XmlEvent → Option XmlKeyfile
  | .start name => some { found with tagStack := name :: found.tagStack }
  | .stop => some { found with tagStack := found.tagStack.tail }
  | .text s => do
    let s ← s
    if found.tagStack = ["Version", "Meta", "KeyFile"] then some { found with keyVersion := some s }
    else if found.tagStack = ["Data", "Key", "KeyFile"] then some { found with keyValue := some s }
    else some found
  | .other => some found
  | .error => none

/-- `hex::decode`. -/
def hexDecode : Bytes → Option Bytes
  | [] => some []
  | high :: low :: rest => do
    let high ← Percent.hexNibble high
    let low ← Percent.hexNibble low
    let rest ← hexDecode rest
    return (high <<< 4 ||| low) :: rest
  | [_] => none

/-- `parse_xml_keyfile`; which error it ends with is not looked at. -/
def parseXmlKeyfile (events : List XmlEvent) : Option Bytes := do
  let found ← events.foldlM XmlKeyfile.read {}
  let keyValue ← found.keyValue
  if found.keyVersion = some "2.0" then
    let trimmedKey := (Text.trim keyValue.toList).filter fun ch => ch ∉ [' ', '\n', '\t', '\r']
    return (hexDecode (Text.utf8 trimmedKey)).getD (Text.utf8 keyValue.toList)
  return (Base64.decode keyValue.toList).getD (Text.utf8 keyValue.toList)

/-- `parse_keyfile`. -/
def parseKeyfile (c : Crypto) (buffer : Bytes) : Bytes :=
  match parseXmlKeyfile (c.xmlEvents buffer) with
  | some key => key
  | none => if buffer.length = 32 then buffer else c.sha256 buffer

/-- `get_key_elements`. -/
def getKeyElements (c : Crypto) (key : Falach.DatabaseKey) : Except DatabaseKeyError (List Bytes) :=
  let out := (key.password.map fun p => c.sha256 (Text.utf8 p.toList)).toList ++
    (key.keyfile.map (parseKeyfile c)).toList
  if out = [] then .error .emptyKey else .ok out

/-! ## Derived keys -/

/-- `transform_key` of `argon2`. -/
def argon2TransformKey (c : Crypto) (variant : Argon2Variant) (iterations memory : UInt64) (parallelism : UInt32)
    (version : Argon2Version) (salt compositeKey : Bytes) : Except CryptographyError Bytes :=
  let config : Argon2Config := ⟨parallelism, (memory / 1024).toUInt32, iterations.toUInt32, variant, version⟩
  match c.argon2 config compositeKey salt with
  | none => .error .argon2
  | some key => if key.length = 32 then .ok key else .error .invalidLength

/-- `transform_key`. -/
def KdfConfig.transformKey (c : Crypto) (seed compositeKey : Bytes) : KdfConfig → Except CryptographyError Bytes
  | aes rounds =>
    if seed.length ≠ 32 then .error .invalidLength
    else
      let block1 := (c.aes256.encrypt seed)^[rounds.toNat] (compositeKey.take 16)
      let block2 := (c.aes256.encrypt seed)^[rounds.toNat] (compositeKey.drop 16)
      .ok (c.sha256 (block1 ++ block2))
  | argon2 iterations memory parallelism version =>
    argon2TransformKey c .argon2d iterations memory parallelism version seed compositeKey
  | argon2id iterations memory parallelism version =>
    argon2TransformKey c .argon2id iterations memory parallelism version seed compositeKey

/-- The keys that are derived from the master seed and the transformed key. -/
structure MasterKeys where
  masterKey : Bytes
  hmacKey : Bytes
deriving DecidableEq

inductive KeysError where
  | key (e : DatabaseKeyError)
  | cryptography (e : CryptographyError)
deriving DecidableEq

def hmacKeyEnd : Bytes := [0x01]

/-- The keys of a file, as saving and opening derive them. -/
def deriveKeys (c : Crypto) (key : Falach.DatabaseKey) (kdf : KdfConfig) (kdfSeed masterSeed : Bytes) :
    Except KeysError MasterKeys := do
  let keyElements ← (getKeyElements c key).mapError .key
  let compositeKey := c.sha256 keyElements.flatten
  let transformedKey ← (kdf.transformKey c kdfSeed compositeKey).mapError .cryptography
  return {
    masterKey := c.sha256 (masterSeed ++ transformedKey)
    hmacKey := c.sha512 (masterSeed ++ transformedKey ++ hmacKeyEnd) }

theorem deriveKeys_masterKey {c : Crypto} (hc : c.Lawful) {key : Falach.DatabaseKey} {kdf : KdfConfig}
    {kdfSeed masterSeed : Bytes} {keys : MasterKeys} (h : deriveKeys c key kdf kdfSeed masterSeed = .ok keys) :
    keys.masterKey.length = 32 := by
  obtain ⟨elements, -, h⟩ := Loop.bind_ok.1 h
  obtain ⟨transformed, -, h⟩ := Loop.bind_ok.1 h
  cases h
  exact hc.length_sha256 _

/-! ## Ciphers -/

namespace OuterCipherConfig

/-- `encrypt` of the cipher that `get_cipher` makes. -/
def encrypt (c : Crypto) (key iv plaintext : Bytes) : OuterCipherConfig → Except CryptographyError Bytes
  | aes256 =>
    if key.length = 32 ∧ iv.length = 16 then .ok (cbcEncryptPadded c.aes256 16 key iv plaintext)
    else .error .invalidLength
  | twofish =>
    if key.length = 32 ∧ iv.length = 16 then .ok (cbcEncryptPadded c.twofish 16 key iv plaintext)
    else .error .invalidLength
  | chaCha20 =>
    if key.length = 32 ∧ iv.length = 12 then .ok ((KeyStream.mk (c.chaCha20 key iv) 0).apply plaintext).1
    else .error .invalidLength

/-- The padding of decrypted blocks is looked at. -/
def checkPadding (decrypted : Option Bytes) : Except CryptographyError (Bytes × Bytes) :=
  match decrypted.bind fun bytes => (unpad 16 bytes).map fun out => (bytes, out) with
  | some x => .ok x
  | none => .error .invalidPadding

/-- `decrypt` of the cipher that `get_cipher` makes. What Twofish decrypts in place keeps its padding. -/
def decrypt (c : Crypto) (key iv ciphertext : Bytes) : OuterCipherConfig → Except CryptographyError Bytes
  | aes256 =>
    if key.length = 32 ∧ iv.length = 16 then
      (checkPadding (cbcDecryptBlocks c.aes256 16 key iv ciphertext)).map Prod.snd
    else .error .invalidLength
  | twofish =>
    if key.length = 32 ∧ iv.length = 16 then
      (checkPadding (cbcDecryptBlocks c.twofish 16 key iv ciphertext)).map Prod.fst
    else .error .invalidLength
  | chaCha20 =>
    if key.length = 32 ∧ iv.length = 12 then .ok ((KeyStream.mk (c.chaCha20 key iv) 0).apply ciphertext).1
    else .error .invalidLength

/-- What is left behind the bytes that were encrypted. -/
def leftover (length : Nat) : OuterCipherConfig → Bytes
  | aes256 => []
  | twofish => padding 16 length
  | chaCha20 => []

/-- What was encrypted is decrypted, but with its padding if it was Twofish. -/
theorem decrypt_encrypt {c : Crypto} (hc : c.Lawful) {config : OuterCipherConfig} {key iv plaintext ciphertext : Bytes}
    (h : config.encrypt c key iv plaintext = .ok ciphertext) :
    config.decrypt c key iv ciphertext = .ok (plaintext ++ config.leftover plaintext.length) := by
  cases config with
  | aes256 =>
    rw [encrypt] at h
    split at h
    · rename_i hlen
      cases h
      rw [decrypt, if_pos hlen, cbcDecryptBlocks_cbcEncryptPadded hc.aes256 hlen.1 (by decide) hlen.2, checkPadding,
        Option.bind_some, unpad_pad (by decide) (by decide), leftover, List.append_nil]
      rfl
    · cases h
  | twofish =>
    rw [encrypt] at h
    split at h
    · rename_i hlen
      cases h
      rw [decrypt, if_pos hlen, cbcDecryptBlocks_cbcEncryptPadded hc.twofish hlen.1 (by decide) hlen.2, checkPadding,
        Option.bind_some, unpad_pad (by decide) (by decide)]
      rfl
    · cases h
  | chaCha20 =>
    rw [encrypt] at h
    split at h
    · rename_i hlen
      cases h
      rw [decrypt, if_pos hlen, KeyStream.apply_apply, leftover, List.append_nil]
    · cases h

/-- Of no bytes nothing is decrypted, by the stream cipher, or it fails. -/
theorem decrypt_nil {c : Crypto} {config : OuterCipherConfig} {key iv plaintext : Bytes}
    (h : config.decrypt c key iv [] = .ok plaintext) : plaintext = [] := by
  cases config with
  | chaCha20 =>
    rw [decrypt] at h
    split at h
    · exact (Except.ok.inj h).symm
    · cases h
  | aes256 =>
    rw [decrypt] at h
    split at h <;> cases h
  | twofish =>
    rw [decrypt] at h
    split at h <;> cases h

end OuterCipherConfig

namespace InnerCipherConfig

def salsa20Iv : Bytes := [0xE8, 0x30, 0x09, 0x4B, 0x97, 0x20, 0x5D, 0x2A]

/-- `get_cipher`: the plain cipher changes nothing. -/
def getCipher (c : Crypto) (key : Bytes) : InnerCipherConfig → KeyStream
  | plain => { byte := fun _ => 0 }
  | salsa20 => { byte := c.salsa20 (c.sha256 key) salsa20Iv }
  | chaCha20 => { byte := c.chaCha20 ((c.sha512 key).take 32) (((c.sha512 key).drop 32).take 12) }

end InnerCipherConfig

namespace CompressionConfig

def compress (c : Crypto) (bytes : Bytes) : CompressionConfig → Bytes
  | none => bytes
  | gzip => c.gzip bytes

def decompress (c : Crypto) (bytes : Bytes) : CompressionConfig → Option Bytes
  | none => some bytes
  | gzip => c.gunzip bytes

/-- What comes after compressed bytes is not read. -/
theorem decompress_compress {c : Crypto} (hc : c.Lawful) (config : CompressionConfig) (bytes rest : Bytes) :
    config.decompress c (config.compress c bytes ++ rest) =
      some (bytes ++ if config = .none then rest else []) := by
  cases config with
  | none => rfl
  | gzip =>
    rw [if_neg (by decide), List.append_nil]
    exact hc.gunzip_gzip bytes rest

end CompressionConfig

end Kdbx4

end Keepass
