import Falach.Format.Kdbx4
/-!
# What a file can be changed into

Whoever does not have the key can cut files up, put parts of them together and change any byte, but not make the
authentication of anything that was not saved. What opens with the key then opens to one of the saved files, whole and
with its own settings.
-/

namespace Keepass

open Wire Cipher

namespace Kdbx4

variable {c : Crypto} {key : Falach.DatabaseKey} {data : Bytes} {opened : Decrypted}

/-! ## What opening looks at -/

theorem okOr_ok {α : Type} {e : DatabaseOpenError} {o : Option α} {a : α} : okOr e o = .ok a ↔ o = some a := by
  cases o with
  | none => exact iff_of_false nofun nofun
  | some b => exact ⟨fun h => congrArg some (Except.ok.inj h), fun h => congrArg (okOr e) h⟩

theorem length_of_parse {version : DatabaseVersion} (h : DatabaseVersion.parse data = .ok version) :
    DatabaseVersion.versionHeaderSize ≤ data.length ∧ data.take 4 = kdbxIdentifier := by
  rw [DatabaseVersion.parse] at h
  split at h
  · cases h
  split at h
  · cases h
  rename_i hshort hid
  exact ⟨Nat.le_of_not_lt hshort, not_not.1 hid⟩

theorem parseOuterHeader_suffix {header : Kdbx4OuterHeader} {rest : Bytes}
    (h : parseOuterHeader data = .ok (header, rest)) : rest <:+ data.drop DatabaseVersion.versionHeaderSize := by
  obtain ⟨⟨fields, rest'⟩, hrecords, h⟩ := Loop.bind_ok.1 h
  obtain ⟨header', -, h⟩ := Loop.bind_ok.1 h
  cases h
  exact readRecords_suffix hrecords

/-- The parts of data that opens. -/
theorem decryptKdbx4_inv (h : decryptKdbx4 c data key = .ok opened) :
    ∃ version header headerData keys stream payloadEncrypted,
      DatabaseVersion.parse data = .ok version ∧ DatabaseVersion.versionHeaderSize ≤ headerData.length ∧
      data = headerData ++ (c.sha256 headerData ++
        (c.hmac (getHmacBlockKey c headerBlockIndex keys.hmacKey) headerData ++ stream)) ∧
      parseOuterHeader data = .ok (header, c.sha256 headerData ++
        (c.hmac (getHmacBlockKey c headerBlockIndex keys.hmacKey) headerData ++ stream)) ∧
      deriveKeys c key header.kdfConfig header.kdfSeed header.masterSeed = .ok keys ∧
      readHmacBlockStream c stream keys.hmacKey = .ok payloadEncrypted ∧
      decryptPayload c version header keys.masterKey payloadEncrypted = .ok opened := by
  obtain ⟨version, hversion, h⟩ := Loop.bind_ok.1 h
  obtain ⟨⟨header, rest⟩, hheader, h⟩ := Loop.bind_ok.1 h
  obtain ⟨⟨sha, afterSha⟩, hsha, h⟩ := Loop.bind_ok.1 h
  obtain ⟨⟨mac, stream⟩, hmac, h⟩ := Loop.bind_ok.1 h
  have hversion := Loop.mapError_ok.1 hversion
  have hheader := Loop.mapError_ok.1 hheader
  obtain ⟨rfl, -⟩ := splitExact_eq_some_iff.1 (okOr_ok.1 hsha)
  obtain ⟨rfl, -⟩ := splitExact_eq_some_iff.1 (okOr_ok.1 hmac)
  -- what was read of the header is all that comes before the rest
  obtain ⟨hlen, -⟩ := length_of_parse hversion
  obtain ⟨read, hread⟩ := (parseOuterHeader_suffix hheader).trans (List.drop_suffix _ _)
  have hsuffix := (parseOuterHeader_suffix hheader).length_le
  have htake : data.take (data.length - (sha ++ (mac ++ stream)).length) = read := by
    rw [← hread, List.length_append, Nat.add_sub_cancel, List.take_left]
  have hreadLen : DatabaseVersion.versionHeaderSize ≤ read.length := by
    have hsum := congrArg List.length hread
    rw [List.length_append] at hsum
    rw [List.length_drop] at hsuffix
    omega
  dsimp only at h
  rw [htake] at h
  split at h
  · cases h
  rename_i hshaEq
  obtain ⟨keys, hkeys, h⟩ := Loop.bind_ok.1 h
  split at h
  · cases h
  rename_i hmacEq
  obtain ⟨payloadEncrypted, hstream, hpayload⟩ := Loop.bind_ok.1 h
  rw [not_not] at hshaEq hmacEq
  subst hshaEq hmacEq
  exact ⟨version, header, read, keys, stream, payloadEncrypted, hversion, hreadLen, hread.symm, hheader,
    Loop.mapError_ok.1 hkeys, Loop.mapError_ok.1 hstream, hpayload⟩

/-! ## What was saved -/

/-- A file that was saved with the key, and short enough to be opened. -/
structure SavedFile (c : Crypto) (key : Falach.DatabaseKey) where
  config : DatabaseConfig
  walks : Walks
  draws : Draws config
  toXml : ToXml
  xml : Bytes
  attachments : List (Value Bytes)
  bytes : Bytes
  converted : toXml (config.innerCipherConfig.getCipher c draws.innerRandomStreamKey.toList) = .ok (xml, attachments)
  saved : dumpKdbx4 c config toXml key walks draws = .ok bytes
  short : bytes.length < 2 ^ 32
  shortAttachments : ∀ a ∈ attachments, a.get.length + 1 < 2 ^ 32

namespace SavedFile

/-- The parts of a saved file. -/
abbrev Parts (f : SavedFile c key) : Type := Dumped c f.config f.toXml key f.walks f.draws f.bytes

/-- What the file opens to. -/
def content (f : SavedFile c key) : Decrypted := Kdbx4.content c f.config f.draws f.xml f.attachments

/-- What saving the file made an authentication of, and with which key. -/
inductive Authenticated (f : SavedFile c key) : (blockIndex : Nat) → (hmacKey message : Bytes) → Prop where
  | header (parts : f.Parts) : Authenticated f headerBlockIndex parts.keys.hmacKey
      (headerBytes parts.minor f.walks (outerHeader f.config f.draws))
  | block (parts : f.Parts) (i : Nat) (body : Bytes) (h : (blocks parts.payloadEncrypted ++ [[]])[i]? = some body) :
      Authenticated f i parts.keys.hmacKey (leBytes 8 i ++ withLen body)

end SavedFile

/-- No authentication with a key of this password occurs in the data that no save has made. -/
def NoForgery (files : List (SavedFile c key)) (data : Bytes) : Prop :=
  ∀ kdf kdfSeed masterSeed keys, deriveKeys c key kdf kdfSeed masterSeed = .ok keys → ∀ i < 2 ^ 64, ∀ message,
    c.hmac (getHmacBlockKey c i keys.hmacKey) message <:+: data →
      ∃ f ∈ files, ∃ j hmacKey, f.Authenticated j hmacKey message ∧
        getHmacBlockKey c j hmacKey = getHmacBlockKey c i keys.hmacKey

/-- No two blocks of the files have one key. -/
def BlockKeysDiffer (files : List (SavedFile c key)) : Prop :=
  ∀ f ∈ files, ∀ g ∈ files, ∀ (p : f.Parts) (q : g.Parts), ∀ i < 2 ^ 64, ∀ j < 2 ^ 64,
    getHmacBlockKey c i p.keys.hmacKey = getHmacBlockKey c j q.keys.hmacKey → f = g ∧ i = j

/-! ## Only what was saved opens -/

section

variable {files : List (SavedFile c key)} {f : SavedFile c key}

theorem length_blocks_le (data : Bytes) : (blocks data).length ≤ 1 := by
  unfold blocks
  split
  · exact Nat.zero_le 1
  · exact Nat.le_refl 1

/-- The message of a block begins with a small number, and a header does not. -/
theorem SavedFile.Authenticated.header_of_identifier {i : Nat} {hmacKey message : Bytes}
    (h : f.Authenticated i hmacKey message) (hid : message.take 4 = kdbxIdentifier) :
    ∃ parts : f.Parts, i = headerBlockIndex ∧ hmacKey = parts.keys.hmacKey ∧
      message = headerBytes parts.minor f.walks (outerHeader f.config f.draws) := by
  cases h with
  | header parts => exact ⟨parts, rfl, rfl, rfl⟩
  | block parts i body hbody =>
    exfalso
    have hi : i < 2 := by
      have hlt := (List.getElem?_eq_some_iff.1 hbody).1
      have hle := length_blocks_le parts.payloadEncrypted
      rw [List.length_append, List.length_singleton] at hlt
      omega
    have hhead : ((leBytes 8 i ++ withLen body).take 4).head? = some 0x03 := congrArg List.head? hid
    have hbyte : (UInt8.ofNat i) = 0x03 := Option.some.inj hhead
    have hnum := congrArg UInt8.toNat hbyte
    rw [UInt8.toNat_ofNat_of_lt' (Nat.lt_trans hi (by decide))] at hnum
    change i = 3 at hnum
    omega

/-- The parts of a file are determined. -/
theorem SavedFile.parts_eq (p q : f.Parts) : p.minor = q.minor ∧ p.keys = q.keys ∧ p.payloadEncrypted = q.payloadEncrypted := by
  obtain ⟨minor, keys, xml, attachments, payloadEncrypted, hversion, hkeys, hxml, henc, -⟩ := p
  obtain ⟨minor', keys', xml', attachments', payloadEncrypted', hversion', hkeys', hxml', henc', -⟩ := q
  obtain rfl := DatabaseVersion.kdb4.inj (hversion.symm.trans hversion')
  obtain rfl := Except.ok.inj (hkeys.symm.trans hkeys')
  obtain ⟨rfl, rfl⟩ := Prod.mk.inj (Except.ok.inj (hxml.symm.trans hxml'))
  obtain rfl := Except.ok.inj (henc.symm.trans henc')
  exact ⟨rfl, rfl, rfl⟩

/-- Nothing cannot be opened. -/
theorem decryptPayload_nil (hc : c.Lawful) {version : DatabaseVersion} {header : Kdbx4OuterHeader} {masterKey : Bytes} :
    decryptPayload c version header masterKey [] ≠ .ok opened := by
  intro h
  obtain ⟨compressed, hcompressed, h⟩ := Loop.bind_ok.1 h
  obtain rfl := OuterCipherConfig.decrypt_nil (Loop.mapError_ok.1 hcompressed)
  obtain ⟨payload, hpayload, h⟩ := Loop.bind_ok.1 h
  have hpayload := okOr_ok.1 hpayload
  cases hconfig : header.compressionConfig with
  | none =>
    rw [hconfig] at hpayload
    cases hpayload
    cases h
  | gzip =>
    rw [hconfig] at hpayload
    have hnone : c.gunzip [] = some payload := hpayload
    rw [hc.gunzip_nil] at hnone
    cases hnone

/-- In the stream behind a header, only the blocks of its own file can be read. -/
theorem onlyTags_stream {stream : Bytes} {keys : MasterKeys} {kdf : KdfConfig} {kdfSeed masterSeed : Bytes}
    (hforge : NoForgery files data) (hdiffer : BlockKeysDiffer files) (hf : f ∈ files) (parts : f.Parts)
    (hkeys : deriveKeys c key kdf kdfSeed masterSeed = .ok keys) (hsame : parts.keys = keys) (hstream : stream <:+ data) :
    Frames.OnlyTags (blockHmac c keys.hmacKey) (blocks parts.payloadEncrypted) stream := by
  intro i m hi hm
  have hsmall : i < 2 := Nat.lt_succ_of_le (Nat.le_trans hi (length_blocks_le _))
  obtain ⟨g, hg, j, hmacKey, hauth, hkey⟩ := hforge kdf kdfSeed masterSeed keys hkeys i
    (Nat.lt_trans hsmall (by decide)) (leBytes 8 i ++ m) (hm.trans hstream.isInfix)
  generalize hmessage : leBytes 8 i ++ m = message at hauth
  subst hsame
  cases hauth with
  | header q =>
    -- a header has another number than a block
    have hindex := (hdiffer g hg f hf q parts headerBlockIndex (by decide) i (Nat.lt_trans hsmall (by decide)) hkey).2
    rw [headerBlockIndex] at hindex
    omega
  | block q j body hbody =>
    have hj : j < 2 := by
      have hlt := (List.getElem?_eq_some_iff.1 hbody).1
      have hle := length_blocks_le q.payloadEncrypted
      rw [List.length_append, List.length_singleton] at hlt
      omega
    obtain ⟨rfl, rfl⟩ := hdiffer g hg f hf q parts j (Nat.lt_trans hj (by decide)) i (Nat.lt_trans hsmall (by decide)) hkey
    rw [← (SavedFile.parts_eq q parts).2.2, hbody, List.append_cancel_left hmessage]
    rfl

end

/-! ### A file with something behind it -/

def smallKeys : MasterKeys :=
  match deriveKeys (clearCrypto fun _ _ => []) smallKey (.aes 0) smallDraws.kdfSeed.toList
    smallDraws.masterSeed.toList with
  | .ok keys => keys
  | .error _ => ⟨[], []⟩

def smallPayload : Bytes :=
  cbcEncryptPadded ⟨fun _ b => b, fun _ b => b⟩ 16 smallKeys.masterKey smallDraws.outerIv.toList
    (payload smallConfig smallDraws [0x3c] [.«protected» [7], .unprotected [8, 9]])

/-- The keys and messages that saving the file makes authentications of. -/
def smallMacs : List (Bytes × Bytes) :=
  let key (i : Nat) := firstBytes 64 (leBytes 8 i ++ smallKeys.hmacKey)
  [(key headerBlockIndex, headerBytes 1 smallWalks (outerHeader smallConfig smallDraws)),
    (key 0, leBytes 8 0 ++ withLen smallPayload), (key 1, leBytes 8 1 ++ withLen [])]

/-- An authentication of what was saved, and another one for everything else. -/
def smallHmac (key message : Bytes) : Bytes := List.replicate 32 (if (key, message) ∈ smallMacs then 0xee else 0xff)

def smallFile : SavedFile (clearCrypto smallHmac) smallKey where
  config := smallConfig
  walks := smallWalks
  draws := smallDraws
  toXml := smallToXml
  xml := [0x3c]
  attachments := [.«protected» [7], .unprotected [8, 9]]
  bytes := smallBytes smallHmac
  converted := rfl
  saved := smallBytes_saved smallHmac
  short := by decide +kernel
  shortAttachments := by decide

theorem smallParts_keys (parts : smallFile.Parts) : parts.keys = smallKeys ∧ parts.minor = 1 ∧
    parts.payloadEncrypted = smallPayload := by
  have hkeys : parts.keys = smallKeys := Except.ok.inj (parts.derived.symm.trans rfl)
  have hxml := Prod.mk.inj (Except.ok.inj (parts.converted.symm.trans smallFile.converted))
  have henc := parts.encrypted
  rw [hxml.1, hxml.2, hkeys] at henc
  exact ⟨hkeys, (DatabaseVersion.kdb4.inj parts.version).symm, Except.ok.inj (henc.symm.trans rfl)⟩

theorem smallFile_differ : BlockKeysDiffer [smallFile] := by
  intro f hf g hg p q i hi j hj hkey
  obtain rfl := List.mem_singleton.1 hf
  obtain rfl := List.mem_singleton.1 hg
  have hpow : 2 ^ 64 = 256 ^ 8 := by decide
  rw [hpow] at hi hj
  refine ⟨rfl, leBytes_injective hi hj ?_⟩
  have htake (i : Nat) (hmacKey : Bytes) :
      (getHmacBlockKey (clearCrypto smallHmac) i hmacKey).take 8 = leBytes 8 i := by
    change ((leBytes 8 i ++ hmacKey ++ List.replicate 64 0).take 64).take 8 = _
    rw [List.take_take, List.append_assoc]
    exact List.take_left' (length_leBytes 8 i)
  rw [← htake i p.keys.hmacKey, ← htake j q.keys.hmacKey, hkey]

theorem smallFile_noForgery : NoForgery [smallFile] (smallFile.bytes ++ [0xde, 0xad]) := by
  intro kdf kdfSeed masterSeed keys _ i hi message hin
  obtain ⟨parts⟩ := exists_dumped smallFile.saved
  obtain ⟨hkeys, hminor, hpayload⟩ := smallParts_keys parts
  by_cases hmem : (getHmacBlockKey (clearCrypto smallHmac) i keys.hmacKey, message) ∈ smallMacs
  · have hheader : smallFile.Authenticated headerBlockIndex smallKeys.hmacKey
        (headerBytes 1 smallWalks (outerHeader smallConfig smallDraws)) := by
      rw [← hkeys, ← hminor]
      exact .header parts
    have hblock {j : Nat} {body : Bytes} (hj : ([smallPayload] ++ [[]])[j]? = some body) :
        smallFile.Authenticated j smallKeys.hmacKey (leBytes 8 j ++ withLen body) := by
      rw [← hkeys]
      refine .block parts j body ?_
      rw [hpayload]
      exact hj
    simp only [smallMacs, List.mem_cons, List.not_mem_nil, or_false, Prod.mk.injEq] at hmem
    rcases hmem with ⟨hk, rfl⟩ | ⟨hk, rfl⟩ | ⟨hk, rfl⟩
    · exact ⟨smallFile, List.mem_singleton_self _, _, _, hheader, hk.symm⟩
    · exact ⟨smallFile, List.mem_singleton_self _, _, _, hblock rfl, hk.symm⟩
    · exact ⟨smallFile, List.mem_singleton_self _, _, _, hblock rfl, hk.symm⟩
  · exfalso
    have hnone : ¬ List.replicate 32 0xff <:+: smallFile.bytes ++ [0xde, 0xad] := by decide +kernel
    refine hnone ?_
    change List.replicate 32 (if _ then (0xee : UInt8) else 0xff) <:+: _ at hin
    rwa [if_neg hmem] at hin

end Kdbx4

end Keepass
