import Falach.Format.VariantDictionary
/-!
# The settings of a file

Which ciphers, which compression and which key derivation a file of the format has, and how they stand in its header.
Here the numbers have the widths they have in the file.
-/

namespace Keepass

open Wire

namespace Kdbx4

/-! ## Versions -/

inductive DatabaseVersion where
  | kdb (minor : UInt16)
  | kdb2 (minor : UInt16)
  | kdb3 (minor : UInt16)
  | kdb4 (minor : UInt16)
deriving DecidableEq

inductive DatabaseVersionParseError where
  | unexpectedEof
  | invalidKdbxIdentifier
  | invalidKdbxVersion (version fileMajorVersion fileMinorVersion : Nat)
deriving DecidableEq

def kdbxIdentifier : Bytes := [0x03, 0xd9, 0xa2, 0x9a]
def keepass1Id : Nat := 0xb54bfb65
def keepass2Id : Nat := 0xb54bfb66
def keepassLatestId : Nat := 0xb54bfb67
def kdbx3MajorVersion : Nat := 3
def kdbx4MajorVersion : Nat := 4

namespace DatabaseVersion

/-- `get_version_header_size`. -/
def versionHeaderSize : Nat := 12

def parse (data : Bytes) : Except DatabaseVersionParseError DatabaseVersion :=
  if data.length < versionHeaderSize then .error .unexpectedEof
  else if data.take 4 ≠ kdbxIdentifier then .error .invalidKdbxIdentifier
  else
    let version := ofLe ((data.drop 4).take 4)
    let fileMinorVersion := ofLe ((data.drop 8).take 2)
    let fileMajorVersion := ofLe ((data.drop 10).take 2)
    if version = keepass1Id then .ok (kdb (UInt16.ofNat fileMinorVersion))
    else if version = keepass2Id then .ok (kdb2 (UInt16.ofNat fileMinorVersion))
    else if version = keepassLatestId ∧ fileMajorVersion = kdbx3MajorVersion then
      .ok (kdb3 (UInt16.ofNat fileMinorVersion))
    else if version = keepassLatestId ∧ fileMajorVersion = kdbx4MajorVersion then
      .ok (kdb4 (UInt16.ofNat fileMinorVersion))
    else .error (.invalidKdbxVersion version fileMajorVersion fileMinorVersion)

/-- What `dump` writes for `KDB4`; it panics for the others. -/
def dumpKdb4 (minor : UInt16) : Bytes :=
  kdbxIdentifier ++ leBytes 4 keepassLatestId ++ leBytes 2 minor.toNat ++ leBytes 2 kdbx4MajorVersion

end DatabaseVersion

/-! ## Ciphers and compression -/

inductive OuterCipherConfig where
  | aes256
  | twofish
  | chaCha20
deriving DecidableEq

def ciphersuiteAes256 : Bytes :=
  [0x31, 0xc1, 0xf2, 0xe6, 0xbf, 0x71, 0x43, 0x50, 0xbe, 0x58, 0x05, 0x21, 0x6a, 0xfc, 0x5a, 0xff]
def ciphersuiteTwofish : Bytes :=
  [0xad, 0x68, 0xf2, 0x9f, 0x57, 0x6f, 0x4b, 0xb9, 0xa3, 0x6a, 0xd4, 0x7a, 0xf9, 0x65, 0x34, 0x6c]
def ciphersuiteChaCha20 : Bytes :=
  [0xd6, 0x03, 0x8a, 0x2b, 0x8b, 0x6f, 0x4c, 0xb5, 0xa5, 0x24, 0x33, 0x9a, 0x31, 0xdb, 0xb5, 0x9a]

namespace OuterCipherConfig

/-- `get_iv_size`. -/
def ivSize : OuterCipherConfig → Nat
  | aes256 => 16
  | twofish => 16
  | chaCha20 => 12

def dump : OuterCipherConfig → Bytes
  | aes256 => ciphersuiteAes256
  | twofish => ciphersuiteTwofish
  | chaCha20 => ciphersuiteChaCha20

/-- `try_from`; the error is the identifier. -/
def tryFrom (v : Bytes) : Except Bytes OuterCipherConfig :=
  if v = ciphersuiteAes256 then .ok aes256
  else if v = ciphersuiteTwofish then .ok twofish
  else if v = ciphersuiteChaCha20 then .ok chaCha20
  else .error v

end OuterCipherConfig

inductive InnerCipherConfig where
  | plain
  | salsa20
  | chaCha20
deriving DecidableEq

namespace InnerCipherConfig

def dump : InnerCipherConfig → Nat
  | plain => 0
  | salsa20 => 2
  | chaCha20 => 3

/-- `get_key_size`. -/
def keySize : InnerCipherConfig → Nat
  | plain => 1
  | salsa20 => 32
  | chaCha20 => 32

/-- `try_from`; the error is the number. -/
def tryFrom : Nat → Except Nat InnerCipherConfig
  | 0 => .ok plain
  | 2 => .ok salsa20
  | 3 => .ok chaCha20
  | v => .error v

end InnerCipherConfig

inductive CompressionConfig where
  | none
  | gzip
deriving DecidableEq

namespace CompressionConfig

def dump : CompressionConfig → Bytes
  | none => [0, 0, 0, 0]
  | gzip => [1, 0, 0, 0]

/-- `try_from`; the error is the number. -/
def tryFrom : Nat → Except Nat CompressionConfig
  | 0 => .ok none
  | 1 => .ok gzip
  | v => .error v

end CompressionConfig

/-! ## Key derivation -/

/-- `argon2::Version`. -/
inductive Argon2Version where
  | version10
  | version13
deriving DecidableEq

def Argon2Version.asU32 : Argon2Version → UInt32
  | version10 => 0x10
  | version13 => 0x13

inductive KdfConfig where
  | aes (rounds : UInt64)
  | argon2 (iterations memory : UInt64) (parallelism : UInt32) (version : Argon2Version)
  | argon2id (iterations memory : UInt64) (parallelism : UInt32) (version : Argon2Version)
deriving DecidableEq

inductive KdfConfigError where
  | invalidKdfVersion (version : UInt32)
  | invalidKdfUuid (uuid : Bytes)
  | variantDictionary (e : VariantDictionaryError)
deriving DecidableEq

def kdfId : String := "$UUID"
def kdfMemory : String := "M"
def kdfSalt : String := "S"
def kdfIterations : String := "I"
def kdfParallelism : String := "P"
def kdfVersion : String := "V"
def kdfSeed : String := "S"
def kdfRounds : String := "R"

def kdfAesKdbx3 : Bytes :=
  [0xc9, 0xd9, 0xf3, 0x9a, 0x62, 0x8a, 0x44, 0x60, 0xbf, 0x74, 0x0d, 0x08, 0xc1, 0x8a, 0x4f, 0xea]
def kdfAesKdbx4 : Bytes :=
  [0x7c, 0x02, 0xbb, 0x82, 0x79, 0xa7, 0x4a, 0xc0, 0x92, 0x7d, 0x11, 0x4a, 0x00, 0x64, 0x82, 0x38]
def kdfArgon2 : Bytes :=
  [0xef, 0x63, 0x6d, 0xdf, 0x8c, 0x29, 0x44, 0x4b, 0x91, 0xf7, 0xa9, 0xa4, 0x03, 0xe3, 0x0a, 0x0c]
def kdfArgon2id : Bytes :=
  [0x9e, 0x29, 0x8b, 0x19, 0x56, 0xdb, 0x47, 0x73, 0xb2, 0x3d, 0xfc, 0x3e, 0xc6, 0xf0, 0xa1, 0xe6]

/-- The conversions of a value into the type that is asked for. -/
def asU32 : VariantDictionaryValue → Option UInt32
  | .uInt32 v => some v
  | _ => none
def asU64 : VariantDictionaryValue → Option UInt64
  | .uInt64 v => some v
  | _ => none
def asBytes : VariantDictionaryValue → Option Bytes
  | .byteArray v => some v
  | _ => none

/-- `VariantDictionary::get`. -/
def getAs {α : Type} (as : VariantDictionaryValue → Option α) (vd : VariantDictionary) (key : String) :
    Except KdfConfigError α := do
  let vdv ← (vd.get key).mapError .variantDictionary
  match as vdv with
  | some v => .ok v
  | none => .error (.variantDictionary (.mistyped key))

/-- What `Argon2` and `Argon2id` have in common. -/
structure Argon2Fields where
  memory : UInt64
  salt : Bytes
  iterations : UInt64
  parallelism : UInt32
  version : Argon2Version
deriving DecidableEq

namespace KdfConfig

/-- The dictionary of either kind of Argon2. -/
def argon2Dictionary (id : Bytes) (fields : Argon2Fields) : VariantDictionary :=
  ⟨(((((Finmap.insert kdfId (.byteArray id) ∅).insert kdfMemory (.uInt64 fields.memory)).insert
    kdfSalt (.byteArray fields.salt)).insert kdfIterations (.uInt64 fields.iterations)).insert
    kdfParallelism (.uInt32 fields.parallelism)).insert kdfVersion (.uInt32 fields.version.asU32)⟩

def toVariantDictionary (seed : Bytes) : KdfConfig → VariantDictionary
  | aes rounds => ⟨((Finmap.insert kdfId (.byteArray kdfAesKdbx4) ∅).insert kdfRounds (.uInt64 rounds)).insert
      kdfSeed (.byteArray seed)⟩
  | argon2 iterations memory parallelism version =>
    argon2Dictionary kdfArgon2 ⟨memory, seed, iterations, parallelism, version⟩
  | argon2id iterations memory parallelism version =>
    argon2Dictionary kdfArgon2id ⟨memory, seed, iterations, parallelism, version⟩

/-- What either kind of Argon2 reads. -/
def readArgon2 (vd : VariantDictionary) : Except KdfConfigError Argon2Fields := do
  let memory ← getAs asU64 vd kdfMemory
  let salt ← getAs asBytes vd kdfSalt
  let iterations ← getAs asU64 vd kdfIterations
  let parallelism ← getAs asU32 vd kdfParallelism
  let version ← getAs asU32 vd kdfVersion
  if version = 0x10 then .ok ⟨memory, salt, iterations, parallelism, .version10⟩
  else if version = 0x13 then .ok ⟨memory, salt, iterations, parallelism, .version13⟩
  else .error (.invalidKdfVersion version)

/-- `try_from`: the settings and the seed. -/
def tryFrom (vd : VariantDictionary) : Except KdfConfigError (KdfConfig × Bytes) := do
  let uuid ← getAs asBytes vd kdfId
  if uuid = kdfArgon2id then
    let f ← readArgon2 vd
    .ok (argon2id f.iterations f.memory f.parallelism f.version, f.salt)
  else if uuid = kdfArgon2 then
    let f ← readArgon2 vd
    .ok (argon2 f.iterations f.memory f.parallelism f.version, f.salt)
  else if uuid = kdfAesKdbx4 ∨ uuid = kdfAesKdbx3 then
    let rounds ← getAs asU64 vd kdfRounds
    let seed ← getAs asBytes vd kdfSeed
    .ok (aes rounds, seed)
  else .error (.invalidKdfUuid uuid)

/-- The settings with numbers of any size. -/
def erase : KdfConfig → Keepass.KdfConfig
  | aes rounds => .aes rounds.toNat
  | argon2 iterations memory parallelism version =>
    .argon2 iterations.toNat memory.toNat parallelism.toNat version.asU32.toNat
  | argon2id iterations memory parallelism version =>
    .argon2id iterations.toNat memory.toNat parallelism.toNat version.asU32.toNat

end KdfConfig

/-- `DatabaseConfig`. -/
structure DatabaseConfig where
  version : DatabaseVersion
  outerCipherConfig : OuterCipherConfig
  compressionConfig : CompressionConfig
  innerCipherConfig : InnerCipherConfig
  kdfConfig : KdfConfig
  publicCustomData : Option VariantDictionary
deriving DecidableEq

/-! ## What was written is read -/

theorem DatabaseVersion.parse_dumpKdb4 (minor : UInt16) (rest : Bytes) :
    parse (dumpKdb4 minor ++ rest) = .ok (kdb4 minor) := by
  have hlen : (dumpKdb4 minor).length = versionHeaderSize := by simp [dumpKdb4, kdbxIdentifier, versionHeaderSize]
  have hbytes : dumpKdb4 minor ++ rest = kdbxIdentifier ++ (leBytes 4 keepassLatestId ++ (leBytes 2 minor.toNat ++
      (leBytes 2 kdbx4MajorVersion ++ rest))) := by simp only [dumpKdb4, List.append_assoc]
  have hminor : ofLe (leBytes 2 minor.toNat) = minor.toNat := ofLe_leBytes minor.toNat_lt
  have hid : ofLe (leBytes 4 keepassLatestId) = keepassLatestId := ofLe_leBytes (by decide)
  have hmajor : ofLe (leBytes 2 kdbx4MajorVersion) = kdbx4MajorVersion := ofLe_leBytes (by decide)
  have h4 : (dumpKdb4 minor ++ rest).drop 4 = leBytes 4 keepassLatestId ++ (leBytes 2 minor.toNat ++
      (leBytes 2 kdbx4MajorVersion ++ rest)) := by rw [hbytes, List.drop_left' (by rfl)]
  have h8 : (dumpKdb4 minor ++ rest).drop 8 = leBytes 2 minor.toNat ++ (leBytes 2 kdbx4MajorVersion ++ rest) := by
    have hdrop : (dumpKdb4 minor ++ rest).drop 8 = ((dumpKdb4 minor ++ rest).drop 4).drop 4 := by rw [List.drop_drop]
    rw [hdrop, h4, List.drop_left' (length_leBytes 4 _)]
  have h10 : (dumpKdb4 minor ++ rest).drop 10 = leBytes 2 kdbx4MajorVersion ++ rest := by
    have hdrop : (dumpKdb4 minor ++ rest).drop 10 = ((dumpKdb4 minor ++ rest).drop 8).drop 2 := by rw [List.drop_drop]
    rw [hdrop, h8, List.drop_left' (length_leBytes 2 _)]
  have hlong : ¬ (dumpKdb4 minor ++ rest).length < versionHeaderSize := by
    rw [List.length_append, hlen]
    omega
  have htake : (dumpKdb4 minor ++ rest).take 4 = kdbxIdentifier := by rw [hbytes, List.take_left' (by rfl)]
  rw [parse, if_neg hlong, if_neg (not_not.2 htake), h4, h8, h10, List.take_left' (length_leBytes 4 _),
    List.take_left' (length_leBytes 2 _), List.take_left' (length_leBytes 2 _)]
  dsimp only
  rw [hid, hmajor, hminor, if_neg (by decide), if_neg (by decide), if_neg (by decide), if_pos ⟨rfl, rfl⟩,
    UInt16.ofNat_toNat]

theorem OuterCipherConfig.tryFrom_dump (c : OuterCipherConfig) : tryFrom c.dump = .ok c := by cases c <;> rfl

theorem InnerCipherConfig.tryFrom_dump (c : InnerCipherConfig) : tryFrom c.dump = .ok c := by cases c <;> rfl

theorem CompressionConfig.tryFrom_dump (c : CompressionConfig) : tryFrom (ofLe c.dump) = .ok c := by cases c <;> rfl

theorem getAs_ok {α : Type} {as : VariantDictionaryValue → Option α} {vd : VariantDictionary} {key : String}
    {value : VariantDictionaryValue} {v : α} (hkey : vd.data.lookup key = some value) (has : as value = some v) :
    getAs as vd key = .ok v := by
  have hget : vd.get key = .ok value := by rw [VariantDictionary.get, hkey]
  rw [getAs, hget, Except.mapError]
  exact congrArg (fun o : Option α => match o with
    | some v => Except.ok v
    | none => .error (KdfConfigError.variantDictionary (.mistyped key))) has

theorem KdfConfig.readArgon2_dictionary (id : Bytes) (fields : Argon2Fields) :
    readArgon2 (argon2Dictionary id fields) = .ok fields := by
  have hmemory : getAs asU64 (argon2Dictionary id fields) kdfMemory = .ok fields.memory := getAs_ok rfl rfl
  have hsalt : getAs asBytes (argon2Dictionary id fields) kdfSalt = .ok fields.salt := getAs_ok rfl rfl
  have hiterations : getAs asU64 (argon2Dictionary id fields) kdfIterations = .ok fields.iterations := getAs_ok rfl rfl
  have hparallelism : getAs asU32 (argon2Dictionary id fields) kdfParallelism = .ok fields.parallelism :=
    getAs_ok rfl rfl
  have hversion : getAs asU32 (argon2Dictionary id fields) kdfVersion = .ok fields.version.asU32 := getAs_ok rfl rfl
  obtain ⟨memory, salt, iterations, parallelism, version⟩ := fields
  rw [readArgon2, hmemory, hsalt, hiterations, hparallelism, hversion]
  cases version <;> rfl

/-- The settings of the key derivation and its seed are read as they were written. -/
theorem KdfConfig.tryFrom_toVariantDictionary (config : KdfConfig) (seed : Bytes) :
    tryFrom (config.toVariantDictionary seed) = .ok (config, seed) := by
  cases config with
  | aes rounds =>
    have hid : getAs asBytes (toVariantDictionary seed (aes rounds)) kdfId = .ok kdfAesKdbx4 := getAs_ok rfl rfl
    have hrounds : getAs asU64 (toVariantDictionary seed (aes rounds)) kdfRounds = .ok rounds := getAs_ok rfl rfl
    have hseed : getAs asBytes (toVariantDictionary seed (aes rounds)) kdfSeed = .ok seed := getAs_ok rfl rfl
    rw [tryFrom, hid, hrounds, hseed]
    rfl
  | argon2 iterations memory parallelism version =>
    have hid : getAs asBytes (argon2Dictionary kdfArgon2 ⟨memory, seed, iterations, parallelism, version⟩) kdfId =
      .ok kdfArgon2 := getAs_ok rfl rfl
    rw [toVariantDictionary, tryFrom, hid, readArgon2_dictionary]
    rfl
  | argon2id iterations memory parallelism version =>
    have hid : getAs asBytes (argon2Dictionary kdfArgon2id ⟨memory, seed, iterations, parallelism, version⟩) kdfId =
      .ok kdfArgon2id := getAs_ok rfl rfl
    rw [toVariantDictionary, tryFrom, hid, readArgon2_dictionary]
    rfl

end Kdbx4

end Keepass
