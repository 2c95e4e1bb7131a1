import Falach.Format.Key
import Falach.Lib.Frames
import Mathlib.Data.String.Basic
import Mathlib.Data.Vector.Defs
/-!
# KDBX 4

A database file: the header in the clear with its hash and its authentication, and the database behind it, compressed,
encrypted and cut into authenticated blocks. What a file opens to is what was saved into it, and what opens was saved.
-/

namespace Keepass

open Wire Cipher

namespace Kdbx4

/-! ## The block stream -/

inductive BlockStreamError where
  | blockHashMismatch (blockIndex : Nat)
  | eof
deriving DecidableEq

/-- `get_hmac_block_key`. -/
def getHmacBlockKey (c : Crypto) (blockIndex : Nat) (key : Bytes) : Bytes := c.sha512 (leBytes 8 blockIndex ++ key)

/-- The authentication of a block: of its number, its length and its bytes. -/
def blockHmac (c : Crypto) (key : Bytes) (blockIndex : Nat) (message : Bytes) : Bytes :=
  c.hmac (getHmacBlockKey c blockIndex key) (leBytes 8 blockIndex ++ message)

def readHmacBlockStream (c : Crypto) (data key : Bytes) : Except BlockStreamError Bytes :=
  Frames.readFrames (blockHmac c key) 32 .eof .blockHashMismatch data.length 0 data

/-- The blocks of a stream: all that is left is one block, if anything is. -/
def blocks (data : Bytes) : List Bytes := if data = [] then [] else [data]

def writeHmacBlockStream (c : Crypto) (data key : Bytes) : Bytes :=
  Frames.writeFrames (blockHmac c key) 0 (blocks data)

/-! ## Saving -/

inductive DatabaseSaveError where
  | serialization
  | key (e : DatabaseKeyError)
  | cryptography (e : CryptographyError)
  | unsupportedVersion
deriving DecidableEq

def KeysError.toSave : KeysError → DatabaseSaveError
  | key e => .key e
  | cryptography e => .cryptography e

abbrev SaveRun (α : Type) := Except (Unread DatabaseSaveError) α

/-- The random bytes of a save. -/
structure Draws (config : DatabaseConfig) where
  masterSeed : List.Vector UInt8 32
  outerIv : List.Vector UInt8 config.outerCipherConfig.ivSize
  innerRandomStreamKey : List.Vector UInt8 config.innerCipherConfig.keySize
  kdfSeed : List.Vector UInt8 32

/-- `u64::MAX`, the number of the block that the header stands for. -/
def headerBlockIndex : Nat := 2 ^ 64 - 1

/-- What `to_xml` makes of a database with an inner cipher: the document and the attachments of the inner header. -/
abbrev ToXml := KeyStream → SaveRun (Bytes × List (Value Bytes))

def outerHeader (config : DatabaseConfig) (draws : Draws config) : Kdbx4OuterHeader where
  outerCipherConfig := config.outerCipherConfig
  compressionConfig := config.compressionConfig
  masterSeed := draws.masterSeed.toList
  outerIv := draws.outerIv.toList
  kdfConfig := config.kdfConfig
  kdfSeed := draws.kdfSeed.toList
  publicCustomData := config.publicCustomData

/-- What is compressed and encrypted: the inner header and the document. -/
def payload (config : DatabaseConfig) (draws : Draws config) (xml : Bytes) (attachments : List (Value Bytes)) : Bytes :=
  Kdbx4InnerHeader.dump attachments ⟨config.innerCipherConfig, draws.innerRandomStreamKey.toList⟩ ++ xml

/-- The bytes of a file, from its parts. -/
def assemble (c : Crypto) (headerData hmacKey payloadEncrypted : Bytes) : Bytes :=
  headerData ++ (c.sha256 headerData ++ (c.hmac (getHmacBlockKey c headerBlockIndex hmacKey) headerData ++
    writeHmacBlockStream c payloadEncrypted hmacKey))

/-- The clear beginning of a file. -/
def headerBytes (minor : UInt16) (walks : Walks) (header : Kdbx4OuterHeader) : Bytes :=
  DatabaseVersion.dumpKdb4 minor ++ header.dump walks

/-- `dump_kdbx4`; the hash maps of the header are walked in any orders. -/
def dumpKdbx4 (c : Crypto) (config : DatabaseConfig) (toXml : ToXml) (key : Falach.DatabaseKey) (walks : Walks)
    (draws : Draws config) : SaveRun Bytes :=
  match config.version with
  | .kdb4 minor => do
    let header := outerHeader config draws
    let headerData := headerBytes minor walks header
    let keys ← (deriveKeys c key config.kdfConfig header.kdfSeed header.masterSeed).mapError fun e => .error e.toSave
    let (xml, attachments) ← toXml (config.innerCipherConfig.getCipher c draws.innerRandomStreamKey.toList)
    let payloadCompressed := config.compressionConfig.compress c (payload config draws xml attachments)
    let payloadEncrypted ← (config.outerCipherConfig.encrypt c keys.masterKey header.outerIv payloadCompressed).mapError
      fun e => .error (.cryptography e)
    return assemble c headerData keys.hmacKey payloadEncrypted
  | _ => .error (.error .unsupportedVersion)

/-! ## Opening -/

/-- The errors of reading protected values. -/
inductive UnprotectError where
  | base64
  | io
deriving DecidableEq

inductive ParseXmlError where
  | xml
  | unprotect (e : UnprotectError)
deriving DecidableEq

inductive Kdbx4OpenError where
  | outerHeader (e : Kdbx4OuterHeaderError)
  | innerHeader (e : Kdbx4InnerHeaderError)
  | headerHashMismatch
  | blockStream (e : BlockStreamError)
  | xml (e : ParseXmlError)
deriving DecidableEq

inductive DatabaseOpenError where
  | io
  | unexpectedEof
  | versionParse (e : DatabaseVersionParseError)
  | unsupportedVersion
  | key (e : DatabaseKeyError)
  | cryptography (e : CryptographyError)
  -- the formats before KDBX 4
  | kdb
  | kdbx3
  | kdbx4 (e : Kdbx4OpenError)
deriving DecidableEq

def KeysError.toOpen : KeysError → DatabaseOpenError
  | key e => .key e
  | cryptography e => .cryptography e

abbrev OpenRun (α : Type) := Except (Unread DatabaseOpenError) α

/-- What `decrypt_kdbx4` returns. -/
structure Decrypted where
  config : DatabaseConfig
  headerAttachments : List (Value Bytes)
  innerDecryptor : KeyStream
  xml : Bytes

/-- `ok_or`. -/
def okOr {α : Type} (e : DatabaseOpenError) : Option α → OpenRun α
  | some a => .ok a
  | none => .error (.error e)

/-- `decrypt_kdbx4`, from where the payload is read. -/
def decryptPayload (c : Crypto) (version : DatabaseVersion) (header : Kdbx4OuterHeader) (masterKey payloadEncrypted : Bytes) :
    OpenRun Decrypted := do
  let payloadCompressed ← (header.outerCipherConfig.decrypt c masterKey header.outerIv payloadEncrypted).mapError fun e =>
    .error (.cryptography e)
  let payload ← okOr .io (header.compressionConfig.decompress c payloadCompressed)
  let (headerAttachments, innerHeader, xml) ← (parseInnerHeader payload).mapError (Unread.map fun e =>
    .kdbx4 (.innerHeader e))
  return {
    config := {
      version := version
      outerCipherConfig := header.outerCipherConfig
      compressionConfig := header.compressionConfig
      innerCipherConfig := innerHeader.innerRandomStream
      kdfConfig := header.kdfConfig
      publicCustomData := header.publicCustomData }
    headerAttachments := headerAttachments
    innerDecryptor := innerHeader.innerRandomStream.getCipher c innerHeader.innerRandomStreamKey
    xml := xml }

def decryptKdbx4 (c : Crypto) (data : Bytes) (key : Falach.DatabaseKey) : OpenRun Decrypted := do
  let version ← (DatabaseVersion.parse data).mapError fun e => .error (.versionParse e)
  let (header, rest) ← (parseOuterHeader data).mapError (Unread.map fun e => .kdbx4 (.outerHeader e))
  let headerData := data.take (data.length - rest.length)
  let (headerSha256, rest) ← okOr .unexpectedEof (splitExact 32 rest)
  let (headerHmac, blockStream) ← okOr .unexpectedEof (splitExact 32 rest)
  if headerSha256 ≠ c.sha256 headerData then throw (.error (.kdbx4 .headerHashMismatch))
  let keys ← (deriveKeys c key header.kdfConfig header.kdfSeed header.masterSeed).mapError fun e => .error e.toOpen
  if headerHmac ≠ c.hmac (getHmacBlockKey c headerBlockIndex keys.hmacKey) headerData then
    throw (.error (.key .incorrectKey))
  let payloadEncrypted ← (readHmacBlockStream c blockStream keys.hmacKey).mapError fun e => .error (.kdbx4 (.blockStream e))
  decryptPayload c version header keys.masterKey payloadEncrypted

/-! ## What was saved is opened -/

section

variable {c : Crypto} {config : DatabaseConfig} {toXml : ToXml} {key : Falach.DatabaseKey} {walks : Walks}
  {draws : Draws config} {bytes xml : Bytes} {attachments : List (Value Bytes)}

/-- What a saved file opens to. Without compression the padding that Twofish leaves is behind the document. -/
def content (c : Crypto) (config : DatabaseConfig) (draws : Draws config) (xml : Bytes)
    (attachments : List (Value Bytes)) : Decrypted where
  config := config
  headerAttachments := attachments
  innerDecryptor := config.innerCipherConfig.getCipher c draws.innerRandomStreamKey.toList
  xml := xml ++ if config.compressionConfig = .none then
    config.outerCipherConfig.leftover (payload config draws xml attachments).length else []

/-- The parts that a saved file was made of. -/
structure Dumped (c : Crypto) (config : DatabaseConfig) (toXml : ToXml) (key : Falach.DatabaseKey) (walks : Walks)
    (draws : Draws config) (bytes : Bytes) where
  minor : UInt16
  keys : MasterKeys
  xml : Bytes
  attachments : List (Value Bytes)
  payloadEncrypted : Bytes
  version : config.version = .kdb4 minor
  derived : deriveKeys c key config.kdfConfig draws.kdfSeed.toList draws.masterSeed.toList = .ok keys
  converted : toXml (config.innerCipherConfig.getCipher c draws.innerRandomStreamKey.toList) = .ok (xml, attachments)
  encrypted : config.outerCipherConfig.encrypt c keys.masterKey draws.outerIv.toList
    (config.compressionConfig.compress c (payload config draws xml attachments)) = .ok payloadEncrypted
  assembled : assemble c (headerBytes minor walks (outerHeader config draws)) keys.hmacKey payloadEncrypted = bytes

theorem exists_dumped (h : dumpKdbx4 c config toXml key walks draws = .ok bytes) :
    Nonempty (Dumped c config toXml key walks draws bytes) := by
  rw [dumpKdbx4] at h
  split at h
  · rename_i minor hversion
    obtain ⟨keys, hkeys, h⟩ := Loop.bind_ok.1 h
    obtain ⟨⟨xml, attachments⟩, hxml, h⟩ := Loop.bind_ok.1 h
    obtain ⟨payloadEncrypted, henc, h⟩ := Loop.bind_ok.1 h
    exact ⟨minor, keys, xml, attachments, payloadEncrypted, hversion, Loop.mapError_ok.1 hkeys, hxml, Loop.mapError_ok.1 henc,
      Except.ok.inj h⟩
  · cases h

/-- A payload that was compressed and encrypted is what it was. -/
theorem decryptPayload_encrypted (hc : c.Lawful) {masterKey payloadEncrypted : Bytes}
    (hattachments : ∀ a ∈ attachments, a.get.length + 1 < 2 ^ 32)
    (henc : config.outerCipherConfig.encrypt c masterKey draws.outerIv.toList
      (config.compressionConfig.compress c (payload config draws xml attachments)) = .ok payloadEncrypted) :
    decryptPayload c config.version (outerHeader config draws) masterKey payloadEncrypted =
      .ok (content c config draws xml attachments) := by
  have hkey : draws.innerRandomStreamKey.toList.length < 2 ^ 32 := by
    rw [List.Vector.toList_length]
    cases config.innerCipherConfig <;> decide
  have hdecompress := CompressionConfig.decompress_compress hc config.compressionConfig
    (payload config draws xml attachments)
    (config.outerCipherConfig.leftover (config.compressionConfig.compress c (payload config draws xml attachments)).length)
  have hleftover : (if config.compressionConfig = .none then config.outerCipherConfig.leftover
      (config.compressionConfig.compress c (payload config draws xml attachments)).length else []) =
      if config.compressionConfig = .none then
        config.outerCipherConfig.leftover (payload config draws xml attachments).length else [] := by
    by_cases hnone : config.compressionConfig = .none
    · rw [hnone]
      rfl
    · rw [if_neg hnone, if_neg hnone]
  rw [hleftover] at hdecompress
  have hinner : parseInnerHeader (payload config draws xml attachments ++ if config.compressionConfig = .none then
      config.outerCipherConfig.leftover (payload config draws xml attachments).length else []) =
      .ok (attachments, ⟨config.innerCipherConfig, draws.innerRandomStreamKey.toList⟩,
        (content c config draws xml attachments).xml) := by
    rw [payload, List.append_assoc]
    exact parseInnerHeader_dump ⟨hkey, hattachments⟩ _
  rw [decryptPayload]
  dsimp only [outerHeader]
  rw [OuterCipherConfig.decrypt_encrypt hc henc]
  change (okOr .io (config.compressionConfig.decompress c _)).bind _ = _
  rw [hdecompress, okOr, Except.bind, hinner]
  rfl

theorem flatten_blocks (data : Bytes) : (blocks data).flatten = data := by
  by_cases hnil : data = []
  · rw [blocks, if_pos hnil, hnil, List.flatten_nil]
  · rw [blocks, if_neg hnil, List.flatten_singleton]

theorem mem_blocks {data body : Bytes} : body ∈ blocks data ↔ data ≠ [] ∧ body = data := by
  by_cases hnil : data = []
  · rw [blocks, if_pos hnil]
    exact iff_of_false (List.not_mem_nil) fun h => h.1 hnil
  · rw [blocks, if_neg hnil, List.mem_singleton]
    exact (and_iff_right hnil).symm

/-- A block stream is read as it was written. -/
theorem readHmacBlockStream_write (hc : c.Lawful) {data : Bytes} (hdata : data.length < 2 ^ 32) (hmacKey : Bytes) :
    readHmacBlockStream c (writeHmacBlockStream c data hmacKey) hmacKey = .ok data := by
  have hlen : ∀ body ∈ blocks data, body ≠ [] ∧ body.length < 2 ^ 32 := by
    intro body hbody
    obtain ⟨hne, rfl⟩ := mem_blocks.1 hbody
    exact ⟨hne, hdata⟩
  have hn : (blocks data).length < (writeHmacBlockStream c data hmacKey).length := Frames.length_bodies_lt 0
  have hread : Frames.readFrames (blockHmac c hmacKey) 32 BlockStreamError.eof .blockHashMismatch _ 0 (_ ++ []) = _ :=
    Frames.readFrames_writeFrames (by decide)
      (fun i m => hc.length_hmac (getHmacBlockKey c i hmacKey) (leBytes 8 i ++ m)) hlen hn 0
  rw [List.append_nil, flatten_blocks] at hread
  exact hread

theorem length_dumpKdb4 (minor : UInt16) :
    (DatabaseVersion.dumpKdb4 minor).length = DatabaseVersion.versionHeaderSize := by
  simp [DatabaseVersion.dumpKdb4, kdbxIdentifier, DatabaseVersion.versionHeaderSize]

/-- A header that is in a short file has no long entries. -/
theorem fits_of_header {header : Kdbx4OuterHeader} {minor : UInt16}
    (hlen : (headerBytes minor walks header).length < 2 ^ 32) : header.Fits walks := by
  intro r hr
  have hle : r.2.length ≤ (header.dump walks).length := length_body_le hr
  rw [headerBytes, List.length_append] at hlen
  exact Nat.lt_of_le_of_lt (Nat.le_trans hle (Nat.le_add_left _ _)) hlen

/-- The header of a file, and what comes after it. -/
theorem parseOuterHeader_headerBytes {header : Kdbx4OuterHeader} {minor : UInt16}
    (hlen : (headerBytes minor walks header).length < 2 ^ 32) (rest : Bytes) :
    DatabaseVersion.parse (headerBytes minor walks header ++ rest) = .ok (.kdb4 minor) ∧
      parseOuterHeader (headerBytes minor walks header ++ rest) = .ok (header, rest) := by
  have hbytes : headerBytes minor walks header ++ rest = DatabaseVersion.dumpKdb4 minor ++ (header.dump walks ++ rest) :=
    List.append_assoc _ _ _
  rw [hbytes]
  exact ⟨DatabaseVersion.parse_dumpKdb4 minor _, parseOuterHeader_dump (fits_of_header hlen) (length_dumpKdb4 minor) rest⟩

/-- Opening a file that begins with a header it can be checked with. -/
theorem decryptKdbx4_headerBytes {header : Kdbx4OuterHeader} {minor : UInt16} {keys : MasterKeys}
    (hc : c.Lawful) (hlen : (headerBytes minor walks header).length < 2 ^ 32)
    (hkeys : deriveKeys c key header.kdfConfig header.kdfSeed header.masterSeed = .ok keys) (stream : Bytes) :
    decryptKdbx4 c (headerBytes minor walks header ++ (c.sha256 (headerBytes minor walks header) ++
        (c.hmac (getHmacBlockKey c headerBlockIndex keys.hmacKey) (headerBytes minor walks header) ++ stream))) key =
      ((readHmacBlockStream c stream keys.hmacKey).mapError fun e => .error (.kdbx4 (.blockStream e))).bind
        (decryptPayload c (.kdb4 minor) header keys.masterKey) := by
  obtain ⟨hversion, hheader⟩ := parseOuterHeader_headerBytes hlen
    (c.sha256 (headerBytes minor walks header) ++ (c.hmac (getHmacBlockKey c headerBlockIndex keys.hmacKey)
      (headerBytes minor walks header) ++ stream))
  have htake (rest : Bytes) : (headerBytes minor walks header ++ rest).take
      ((headerBytes minor walks header ++ rest).length - rest.length) = headerBytes minor walks header := by
    rw [List.length_append, Nat.add_sub_cancel, List.take_left]
  rw [decryptKdbx4, hversion, hheader]
  simp only [Except.mapError, bind, Except.bind, htake, okOr, splitExact_append (hc.length_sha256 _),
    splitExact_append (hc.length_hmac _ _), ne_eq, not_true_eq_false, if_false, hkeys]

/-- What a file was assembled from is found in it again. -/
theorem decryptKdbx4_assemble (hc : c.Lawful) {minor : UInt16} {keys : MasterKeys} {payloadEncrypted : Bytes}
    (hversion : config.version = .kdb4 minor)
    (hkeys : deriveKeys c key config.kdfConfig draws.kdfSeed.toList draws.masterSeed.toList = .ok keys)
    (hbytes : assemble c (headerBytes minor walks (outerHeader config draws)) keys.hmacKey payloadEncrypted = bytes)
    (hlen : bytes.length < 2 ^ 32) :
    decryptKdbx4 c bytes key =
      decryptPayload c config.version (outerHeader config draws) keys.masterKey payloadEncrypted := by
  have hparts : bytes.length = (headerBytes minor walks (outerHeader config draws)).length +
      (32 + (32 + (writeHmacBlockStream c payloadEncrypted keys.hmacKey).length)) := by
    rw [← hbytes, assemble, List.length_append, List.length_append, List.length_append, hc.length_sha256, hc.length_hmac]
  have hpayload : payloadEncrypted.length < 2 ^ 32 := by
    by_cases hnil : payloadEncrypted = []
    · rw [hnil]
      exact Nat.two_pow_pos 32
    · have hle : payloadEncrypted.length ≤ (writeHmacBlockStream c payloadEncrypted keys.hmacKey).length :=
        Frames.length_body_le 0 (mem_blocks.2 ⟨hnil, rfl⟩)
      omega
  rw [← hbytes, assemble, decryptKdbx4_headerBytes hc (by omega) hkeys, readHmacBlockStream_write hc hpayload, hversion]
  rfl

end

/-! ### A file -/

/-- The first bytes, as a hash. -/
def firstBytes (n : Nat) (m : Bytes) : Bytes := (m ++ List.replicate n 0).take n

def markBytes (m : Bytes) : Bytes := m.flatMap (fun b => [1, b]) ++ [0]

def unmarkBytes : Bytes → Option Bytes
  | 0 :: _ => some []
  | 1 :: b :: rest => (unmarkBytes rest).map (b :: ·)
  | _ => none

/-- Functions with the right lengths, and nothing hidden. -/
def clearCrypto (hmac : Bytes → Bytes → Bytes) : Crypto where
  sha256 := firstBytes 32
  sha512 := firstBytes 64
  hmac := hmac
  aes256 := ⟨fun _ b => b, fun _ b => b⟩
  twofish := ⟨fun _ b => b, fun _ b => b⟩
  chaCha20 _ _ _ := 0x5a
  salsa20 _ _ _ := 0xa5
  argon2 _ _ _ := none
  gzip := markBytes
  gunzip := unmarkBytes
  xmlEvents _ := []

theorem length_firstBytes (n : Nat) (m : Bytes) : (firstBytes n m).length = n := by
  rw [firstBytes, List.length_take, List.length_append, List.length_replicate]
  omega

theorem clearCrypto_lawful {hmac : Bytes → Bytes → Bytes} (h : ∀ k m, (hmac k m).length = 32) :
    (clearCrypto hmac).Lawful where
  length_sha256 := length_firstBytes 32
  length_sha512 := length_firstBytes 64
  length_hmac := h
  aes256 := ⟨fun _ hblock => hblock, fun _ _ => rfl⟩
  twofish := ⟨fun _ hblock => hblock, fun _ _ => rfl⟩
  gunzip_gzip m rest := by
    induction m with
    | nil => rfl
    | cons b m ih =>
      change (unmarkBytes (markBytes m ++ rest)).map (b :: ·) = _
      rw [show unmarkBytes (markBytes m ++ rest) = some m from ih]
      rfl
  gunzip_nil := rfl

/-- A Twofish file with a number as its custom data. -/
def smallConfig : DatabaseConfig where
  version := .kdb4 1
  outerCipherConfig := .twofish
  compressionConfig := .none
  innerCipherConfig := .plain
  kdfConfig := .aes 0
  publicCustomData := some ⟨Finmap.singleton "a" (.uInt32 1)⟩

def smallDraws : Draws smallConfig :=
  ⟨.replicate 32 1, .replicate 16 2, .replicate 1 3, .replicate 32 4⟩

def smallWalks : Walks := ⟨.sorted, .sorted⟩
def smallKey : Falach.DatabaseKey := { password := some "p" }
def smallToXml : ToXml := fun _ => .ok ([0x3c], [.«protected» [7], .unprotected [8, 9]])

def smallBytes (hmac : Bytes → Bytes → Bytes) : Bytes :=
  match dumpKdbx4 (clearCrypto hmac) smallConfig smallToXml smallKey smallWalks smallDraws with
  | .ok bytes => bytes
  | .error _ => []

theorem smallBytes_saved (hmac : Bytes → Bytes → Bytes) : dumpKdbx4 (clearCrypto hmac) smallConfig smallToXml smallKey
    smallWalks smallDraws = .ok (smallBytes hmac) := rfl

end Kdbx4

end Keepass
