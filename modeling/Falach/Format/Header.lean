import Falach.Format.Config
/-!
# The headers of a file

The outer header is in the clear and the inner one is encrypted with the database. Both are records up to an end record.
What is not whole is an error in the outer header and a panic in the inner one.
-/

namespace Keepass

open Wire

/-- The error of what a part is read by, as an error of the whole. -/
def Unread.map {ε ε' : Type} (f : ε → ε') : Unread ε → Unread ε'
  | error e => error (f e)
  | panic => panic

namespace Kdbx4

/-! ## The outer header -/

structure Kdbx4OuterHeader where
  outerCipherConfig : OuterCipherConfig
  compressionConfig : CompressionConfig
  masterSeed : Bytes
  outerIv : Bytes
  kdfConfig : KdfConfig
  kdfSeed : Bytes
  publicCustomData : Option VariantDictionary
deriving DecidableEq

inductive Kdbx4OuterHeaderError where
  | unexpectedEof
  | outerCipherConfig (cid : Bytes)
  | compressionConfig (cid : Nat)
  | parseKdfConfig (e : VariantDictionaryError)
  | parseCustomData (e : VariantDictionaryError)
  | kdfConfig (e : KdfConfigError)
  | invalidEntry (entryType : UInt8)
  | incomplete (what : String)
deriving DecidableEq

def headerEnd : UInt8 := 0
def headerComment : UInt8 := 1
def headerOuterEncryptionId : UInt8 := 2
def headerCompressionId : UInt8 := 3
def headerMasterSeed : UInt8 := 4
def headerEncryptionIv : UInt8 := 7
def headerKdfParams : UInt8 := 11
def headerPublicCustomData : UInt8 := 12

/-- What was read of the outer header so far. -/
structure OuterFields where
  outerCipher : Option OuterCipherConfig := none
  compressionConfig : Option CompressionConfig := none
  masterSeed : Option Bytes := none
  outerIv : Option Bytes := none
  kdf : Option (KdfConfig × Bytes) := none
  publicCustomData : Option VariantDictionary := none

/-- An entry of the outer header. -/
def OuterFields.read (fields : OuterFields) (entryType : UInt8) (entryBuffer : Bytes) :
    Except (Unread Kdbx4OuterHeaderError) OuterFields :=
  if entryType = headerComment then .ok fields
  else if entryType = headerOuterEncryptionId then do
    let cipher ← (OuterCipherConfig.tryFrom entryBuffer).mapError fun cid => .error (.outerCipherConfig cid)
    return { fields with outerCipher := some cipher }
  else if entryType = headerCompressionId then do
    let (number, _) ← slice 4 entryBuffer
    let config ← (CompressionConfig.tryFrom (ofLe number)).mapError fun cid => .error (.compressionConfig cid)
    return { fields with compressionConfig := some config }
  else if entryType = headerMasterSeed then .ok { fields with masterSeed := some entryBuffer }
  else if entryType = headerEncryptionIv then .ok { fields with outerIv := some entryBuffer }
  else if entryType = headerKdfParams then do
    let vd ← (VariantDictionary.parse entryBuffer).mapError (Unread.map .parseKdfConfig)
    let kdf ← (KdfConfig.tryFrom vd).mapError fun e => .error (.kdfConfig e)
    return { fields with kdf := some kdf }
  else if entryType = headerPublicCustomData then do
    let vd ← (VariantDictionary.parse entryBuffer).mapError (Unread.map .parseCustomData)
    return { fields with publicCustomData := some vd }
  else .error (.error (.invalidEntry entryType))

/-- `get_or_err`, for both headers. -/
def getOrErr {ε α : Type} (e : ε) (v : Option α) : Except (Unread ε) α :=
  match v with
  | some v => .ok v
  | none => .error (.error e)

/-- The header needs to be fully defined. -/
def OuterFields.complete (fields : OuterFields) : Except (Unread Kdbx4OuterHeaderError) Kdbx4OuterHeader := do
  let outerCipherConfig ← getOrErr (.incomplete "Outer Cipher ID") fields.outerCipher
  let compressionConfig ← getOrErr (.incomplete "Compression ID") fields.compressionConfig
  let masterSeed ← getOrErr (.incomplete "Master seed") fields.masterSeed
  let outerIv ← getOrErr (.incomplete "Outer IV") fields.outerIv
  let kdf ← getOrErr (.incomplete "Key Derivation Function Parameters") fields.kdf
  return ⟨outerCipherConfig, compressionConfig, masterSeed, outerIv, kdf.1, kdf.2, fields.publicCustomData⟩

/-- `parse_outer_header`: the header, and what comes after it. -/
def parseOuterHeader (data : Bytes) : Except (Unread Kdbx4OuterHeaderError) (Kdbx4OuterHeader × Bytes) := do
  let (fields, rest) ← readRecords (.error .unexpectedEof) headerEnd OuterFields.read data.length {}
    (data.drop DatabaseVersion.versionHeaderSize)
  let header ← fields.complete
  return (header, rest)

/-- The orders in which the hash maps of the header are walked. -/
structure Walks where
  kdf : Enumeration String
  customData : Enumeration String

namespace Kdbx4OuterHeader

def records (walks : Walks) (header : Kdbx4OuterHeader) : List (UInt8 × Bytes) :=
  [(headerOuterEncryptionId, header.outerCipherConfig.dump), (headerCompressionId, header.compressionConfig.dump),
    (headerEncryptionIv, header.outerIv), (headerMasterSeed, header.masterSeed),
    (headerKdfParams, (header.kdfConfig.toVariantDictionary header.kdfSeed).dump walks.kdf)] ++
  (header.publicCustomData.map fun vd => (headerPublicCustomData, vd.dump walks.customData)).toList

def dump (walks : Walks) (header : Kdbx4OuterHeader) : Bytes := writeRecords headerEnd (header.records walks)

/-- No entry is too long for its length. -/
def Fits (header : Kdbx4OuterHeader) (walks : Walks) : Prop := ∀ r ∈ header.records walks, r.2.length < 2 ^ 32

end Kdbx4OuterHeader

/-! ## The inner header -/

structure Kdbx4InnerHeader where
  innerRandomStream : InnerCipherConfig
  innerRandomStreamKey : Bytes
deriving DecidableEq

inductive Kdbx4InnerHeaderError where
  | innerCipherConfig (cid : Nat)
  | invalidEntry (entryType : UInt8)
  | incomplete (what : String)
deriving DecidableEq

def innerHeaderEnd : UInt8 := 0x00
def innerHeaderRandomStreamId : UInt8 := 0x01
def innerHeaderRandomStreamKey : UInt8 := 0x02
def innerHeaderBinaryAttachments : UInt8 := 0x03

/-- What was read of the inner header so far. -/
structure InnerFields where
  innerRandomStream : Option InnerCipherConfig := none
  innerRandomStreamKey : Option Bytes := none
  headerAttachments : List (Value Bytes) := []

/-- An entry of the inner header. -/
def InnerFields.read (fields : InnerFields) (entryType : UInt8) (entryBuffer : Bytes) :
    Except (Unread Kdbx4InnerHeaderError) InnerFields :=
  if entryType = innerHeaderRandomStreamId then do
    let (number, _) ← slice 4 entryBuffer
    let config ← (InnerCipherConfig.tryFrom (ofLe number)).mapError fun cid => .error (.innerCipherConfig cid)
    return { fields with innerRandomStream := some config }
  else if entryType = innerHeaderRandomStreamKey then .ok { fields with innerRandomStreamKey := some entryBuffer }
  else if entryType = innerHeaderBinaryAttachments then
    match entryBuffer with
    | [] => .error .panic
    | flags :: data =>
      let data := if flags &&& 0x01 ≠ 0 then Value.«protected» data else .unprotected data
      .ok { fields with headerAttachments := fields.headerAttachments ++ [data] }
  else .error (.error (.invalidEntry entryType))

/-- `parse_inner_header`: the attachments, the header, and what comes after it. -/
def parseInnerHeader (data : Bytes) :
    Except (Unread Kdbx4InnerHeaderError) (List (Value Bytes) × Kdbx4InnerHeader × Bytes) := do
  let (fields, rest) ← readRecords .panic innerHeaderEnd InnerFields.read data.length {} data
  let innerRandomStream ← getOrErr (.incomplete "Inner random stream") fields.innerRandomStream
  let innerRandomStreamKey ← getOrErr (.incomplete "Inner random stream key") fields.innerRandomStreamKey
  return (fields.headerAttachments, ⟨innerRandomStream, innerRandomStreamKey⟩, rest)

/-- An attachment in the inner header. -/
def attachmentRecord : Value Bytes → UInt8 × Bytes
  | .unprotected data => (innerHeaderBinaryAttachments, 0x00 :: data)
  | .«protected» data => (innerHeaderBinaryAttachments, 0x01 :: data)

def Kdbx4InnerHeader.records (headerAttachments : List (Value Bytes)) (header : Kdbx4InnerHeader) :
    List (UInt8 × Bytes) :=
  [(innerHeaderRandomStreamId, leBytes 4 header.innerRandomStream.dump),
    (innerHeaderRandomStreamKey, header.innerRandomStreamKey)] ++ headerAttachments.map attachmentRecord

def Kdbx4InnerHeader.dump (headerAttachments : List (Value Bytes)) (header : Kdbx4InnerHeader) : Bytes :=
  writeRecords innerHeaderEnd (header.records headerAttachments)

/-! ## What was written is read -/

section Outer

variable {fields : OuterFields}

theorem OuterFields.read_outerCipher (c : OuterCipherConfig) :
    fields.read headerOuterEncryptionId c.dump = .ok { fields with outerCipher := some c } := by
  cases c <;> rfl

theorem OuterFields.read_compression (c : CompressionConfig) :
    fields.read headerCompressionId c.dump = .ok { fields with compressionConfig := some c } := by
  cases c <;> rfl

theorem OuterFields.read_kdf {config : KdfConfig} {seed : Bytes} {walk : Enumeration String}
    (hfits : (config.toVariantDictionary seed).Fits) :
    fields.read headerKdfParams ((config.toVariantDictionary seed).dump walk) =
      .ok { fields with kdf := some (config, seed) } := by
  have hread (buffer : Bytes) : fields.read headerKdfParams buffer =
      ((VariantDictionary.parse buffer).mapError (Unread.map Kdbx4OuterHeaderError.parseKdfConfig)).bind fun vd =>
        ((KdfConfig.tryFrom vd).mapError fun e => Unread.error (Kdbx4OuterHeaderError.kdfConfig e)).bind fun kdf =>
          .ok { fields with kdf := some kdf } := rfl
  rw [hread, VariantDictionary.parse_dump hfits, Except.mapError, Except.bind, KdfConfig.tryFrom_toVariantDictionary]
  rfl

theorem OuterFields.read_customData {vd : VariantDictionary} {walk : Enumeration String} (hfits : vd.Fits) :
    fields.read headerPublicCustomData (vd.dump walk) = .ok { fields with publicCustomData := some vd } := by
  have hread (buffer : Bytes) : fields.read headerPublicCustomData buffer =
      ((VariantDictionary.parse buffer).mapError (Unread.map Kdbx4OuterHeaderError.parseCustomData)).bind fun vd =>
        .ok { fields with publicCustomData := some vd } := rfl
  rw [hread, VariantDictionary.parse_dump hfits]
  rfl

variable {header : Kdbx4OuterHeader} {walks : Walks}

theorem Kdbx4OuterHeader.records_ne_end : ∀ r ∈ header.records walks, r.1 ≠ headerEnd := by
  intro r hr
  rcases List.mem_append.1 hr with hr | hr
  · simp only [List.mem_cons, List.not_mem_nil, or_false] at hr
    rcases hr with rfl | rfl | rfl | rfl | rfl <;> (dsimp only; decide)
  · obtain ⟨vd, -, rfl⟩ := Option.map_eq_some_iff.1 (Option.mem_toList.1 hr)
    dsimp only
    decide

/-- The entries of the header are read, and it is fully defined. -/
theorem Kdbx4OuterHeader.foldlM_records (hfits : header.Fits walks) :
    (header.records walks).foldlM (fun s r => OuterFields.read s r.1 r.2) {} =
      .ok { outerCipher := header.outerCipherConfig, compressionConfig := header.compressionConfig,
            masterSeed := header.masterSeed, outerIv := header.outerIv, kdf := (header.kdfConfig, header.kdfSeed),
            publicCustomData := header.publicCustomData } := by
  have hkdf : (header.kdfConfig.toVariantDictionary header.kdfSeed).Fits := by
    have hin : (headerKdfParams, (header.kdfConfig.toVariantDictionary header.kdfSeed).dump walks.kdf) ∈
        header.records walks := by simp [records]
    exact VariantDictionary.fits_of_length (hfits _ hin)
  have hiv (fields : OuterFields) : fields.read headerEncryptionIv header.outerIv =
      .ok { fields with outerIv := some header.outerIv } := rfl
  have hmaster (fields : OuterFields) : fields.read headerMasterSeed header.masterSeed =
      .ok { fields with masterSeed := some header.masterSeed } := rfl
  rw [records, List.foldlM_append]
  simp only [List.foldlM_cons, List.foldlM_nil, OuterFields.read_outerCipher, OuterFields.read_compression, hiv,
    hmaster, OuterFields.read_kdf hkdf, bind, Except.bind, pure, Except.pure]
  cases hcustom : header.publicCustomData with
  | none => rfl
  | some vd =>
    have hin : (headerPublicCustomData, vd.dump walks.customData) ∈ header.records walks := by simp [records, hcustom]
    have hvd : vd.Fits := VariantDictionary.fits_of_length (hfits _ hin)
    simp only [Option.map_some, Option.toList_some, List.foldlM_cons, List.foldlM_nil, OuterFields.read_customData hvd,
      bind, Except.bind, pure, Except.pure]

/-- The outer header is read as it was written, in whatever orders its dictionaries were walked. -/
theorem parseOuterHeader_dump (hfits : header.Fits walks) {version : Bytes}
    (hversion : version.length = DatabaseVersion.versionHeaderSize) (rest : Bytes) :
    parseOuterHeader (version ++ (header.dump walks ++ rest)) = .ok (header, rest) := by
  have hn : (header.records walks).length < (version ++ (header.dump walks ++ rest)).length := by
    have hrecords : (header.records walks).length < (header.dump walks).length := length_records_lt
    rw [List.length_append, List.length_append]
    omega
  have hread : readRecords (.error .unexpectedEof) headerEnd OuterFields.read
      (version ++ (header.dump walks ++ rest)).length {} (header.dump walks ++ rest) = _ :=
    readRecords_writeRecords hn Kdbx4OuterHeader.records_ne_end hfits ({} : OuterFields)
  rw [Kdbx4OuterHeader.foldlM_records hfits] at hread
  rw [parseOuterHeader, List.drop_left' hversion, hread]
  rfl

end Outer

section Inner

variable {header : Kdbx4InnerHeader} {attachments : List (Value Bytes)}

/-- No entry of the inner header is too long for its length. -/
def Kdbx4InnerHeader.Fits (attachments : List (Value Bytes)) (header : Kdbx4InnerHeader) : Prop :=
  header.innerRandomStreamKey.length < 2 ^ 32 ∧ ∀ a ∈ attachments, a.get.length + 1 < 2 ^ 32

theorem InnerFields.read_attachment (fields : InnerFields) (a : Value Bytes) :
    fields.read (attachmentRecord a).1 (attachmentRecord a).2 =
      .ok { fields with headerAttachments := fields.headerAttachments ++ [a] } := by
  cases a <;> rfl

theorem InnerFields.foldlM_attachments (fields : InnerFields) :
    (attachments.map attachmentRecord).foldlM (fun s r => InnerFields.read s r.1 r.2) fields =
      .ok { fields with headerAttachments := fields.headerAttachments ++ attachments } := by
  induction attachments generalizing fields with
  | nil => rw [List.append_nil]; rfl
  | cons a attachments ih =>
    rw [List.map_cons, List.foldlM_cons, InnerFields.read_attachment]
    refine (ih _).trans ?_
    rw [List.append_assoc, List.singleton_append]

theorem Kdbx4InnerHeader.records_ne_end : ∀ r ∈ header.records attachments, r.1 ≠ innerHeaderEnd := by
  intro r hr
  rcases List.mem_append.1 hr with hr | hr
  · simp only [List.mem_cons, List.not_mem_nil, or_false] at hr
    rcases hr with rfl | rfl <;> (dsimp only; decide)
  · obtain ⟨a, -, rfl⟩ := List.mem_map.1 hr
    cases a <;> (dsimp only [attachmentRecord]; decide)

theorem Kdbx4InnerHeader.records_fit (hfits : header.Fits attachments) :
    ∀ r ∈ header.records attachments, r.2.length < 2 ^ 32 := by
  intro r hr
  rcases List.mem_append.1 hr with hr | hr
  · simp only [List.mem_cons, List.not_mem_nil, or_false] at hr
    rcases hr with rfl | rfl
    · dsimp only
      rw [length_leBytes]
      decide
    · exact hfits.1
  · obtain ⟨a, ha, rfl⟩ := List.mem_map.1 hr
    have hshort := hfits.2 a ha
    cases a <;> exact hshort

theorem Kdbx4InnerHeader.foldlM_records :
    (header.records attachments).foldlM (fun s r => InnerFields.read s r.1 r.2) {} =
      .ok { innerRandomStream := header.innerRandomStream, innerRandomStreamKey := header.innerRandomStreamKey,
            headerAttachments := attachments } := by
  have hstream (fields : InnerFields) : fields.read innerHeaderRandomStreamId (leBytes 4 header.innerRandomStream.dump) =
      .ok { fields with innerRandomStream := some header.innerRandomStream } := by
    cases header.innerRandomStream <;> rfl
  have hkey (fields : InnerFields) : fields.read innerHeaderRandomStreamKey header.innerRandomStreamKey =
      .ok { fields with innerRandomStreamKey := some header.innerRandomStreamKey } := rfl
  rw [records, List.foldlM_append]
  simp only [List.foldlM_cons, List.foldlM_nil, hstream, hkey, bind, Except.bind, pure, Except.pure]
  exact InnerFields.foldlM_attachments _

/-- The inner header and its attachments are read as they were written, and the rest is left. -/
theorem parseInnerHeader_dump (hfits : header.Fits attachments) (rest : Bytes) :
    parseInnerHeader (header.dump attachments ++ rest) = .ok (attachments, header, rest) := by
  have hn : (header.records attachments).length < (header.dump attachments ++ rest).length := by
    have hrecords : (header.records attachments).length < (header.dump attachments).length := length_records_lt
    rw [List.length_append]
    omega
  have hread : readRecords .panic innerHeaderEnd InnerFields.read (header.dump attachments ++ rest).length {}
      (header.dump attachments ++ rest) = _ :=
    readRecords_writeRecords hn Kdbx4InnerHeader.records_ne_end (Kdbx4InnerHeader.records_fit hfits) ({} : InnerFields)
  rw [Kdbx4InnerHeader.foldlM_records] at hread
  rw [parseInnerHeader, hread]
  rfl

end Inner

end Kdbx4

end Keepass
