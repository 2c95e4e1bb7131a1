import Falach.Format.XmlGroups
/-!
# Saving and opening a database

`Database::save` and `Database::open`: a database goes through its document and the file around it, and comes back as
what the format keeps of it.
-/

namespace Keepass

open Cipher Database

/-! ## The document of a database -/

/-- An icon as it is in the document. -/
def CustomIcon.unlinked (icon : CustomIcon) : CustomIcon := { id := icon.id, data := icon.data }

section

variable {db : Database}

/-- The icons of the document of a database. -/
theorem icons_document (hicons : ∀ cid icon, db.customIcons.lookup cid = some icon → icon.id = cid) (orders : Orders)
    (root : XmlGroup) (children : XmlChildren) :
    (db.document orders root children).icons = db.customIcons.mapVals CustomIcon.unlinked := by
  generalize hitems : db.customIcons.items orders.icons = items
  have hlook : ∀ item, item ∈ items ↔ db.customIcons.lookup item.1 = some item.2 := fun item => by
    rw [← hitems]
    exact Finmap.mem_items orders.icons db.customIcons
  have hkey : ∀ item ∈ items, item.2.id = item.1 := fun item hmem => hicons item.1 item.2 ((hlook item).1 hmem)
  unfold XmlFile.icons document
  rw [hitems, Option.getD_some, List.foldl_map]
  obtain ⟨hinside, houtside⟩ := Finmap.lookup_foldl_insert (l := items)
    (fun item => item.2.id) (fun item => item.2.unlinked) (fun x hx y hy heq => by
      have hxy : x.1 = y.1 := (hkey x hx).symm.trans (heq.trans (hkey y hy))
      have hicon := (hlook x).1 hx
      rw [hxy, (hlook y).1 hy] at hicon
      rw [Option.some.inj hicon]) ∅
  refine Finmap.ext_lookup fun cid => ?_
  rw [Finmap.lookup_mapVals]
  cases hicon : db.customIcons.lookup cid with
  | some icon =>
    have hin := hinside (cid, icon) ((hlook (cid, icon)).2 hicon)
    rw [hicons cid icon hicon] at hin
    exact hin
  | none =>
    refine houtside cid fun hmem => ?_
    obtain ⟨item, hitem, rfl⟩ := List.mem_map.1 hmem
    rw [hkey item hitem, (hlook item).1 hitem] at hicon
    cases hicon

/-- The versions with an icon are those with it when they were written. -/
theorem Entry.iconUses_settle (e : Entry) (icon : CustomIconId) : e.settle.iconUses icon = e.iconUses icon := by
  unfold Entry.iconUses Entry.settle
  rw [Option.getD_some, List.zipIdx_map, List.filter_map, List.map_map]
  rfl

/-- The back-references are collected from what is kept as from what was written. -/
theorem CustomIcon.linkBack_settle (entries : HashMap EntryId Entry) (groups : HashMap GroupId Group) (icon : CustomIcon) :
    icon.linkBack (entries.mapVals Entry.settle) (groups.mapVals Group.settle) = icon.linkBack entries groups := by
  have huses : (fun e : Entry => e.settle.iconUses icon.id) = fun e => e.iconUses icon.id :=
    funext fun e => e.iconUses_settle icon.id
  unfold CustomIcon.linkBack
  simp only [Finmap.keys_mapVals, Finmap.lookup_mapVals, Option.map_map, Option.any_map, Function.comp_def, huses]
  rfl

/-- The icons are linked to what is kept as they were. -/
theorem customIcons_kept : (db.customIcons.mapVals CustomIcon.unlinked).mapVals
    (·.linkBack db.kept.entries db.kept.groups) = db.kept.customIcons := by
  refine Finmap.ext_lookup fun cid => ?_
  rw [Finmap.lookup_mapVals, Finmap.lookup_mapVals, Option.map_map]
  refine Eq.trans ?_ (Finmap.lookup_mapVals _ _ _).symm
  refine congrArg (Option.map · (db.customIcons.lookup cid)) (funext fun icon => ?_)
  exact (icon.unlinked.linkBack_settle _ _)

/-- Once all groups and all entries are there, the part is the whole. -/
theorem PartOf.whole {T P : Database} {gs : Finset GroupId} {es : Finset EntryId} (h : PartOf T P gs es) (hl : Linked T)
    (hgs : ∀ i, i ∈ T.groups → i ∈ gs) (hes : ∀ j, j ∈ T.entries → j ∈ es) :
    P.groups = T.groups ∧ P.entries = T.entries := by
  refine ⟨Finmap.ext_lookup fun i => ?_, Finmap.ext_lookup fun j => ?_⟩
  · refine (h.group i).trans ?_
    cases hg : T.group i with
    | none => exact ite_self none |>.trans hg.symm
    | some g =>
      have hgroups : g.groups ∩ gs = g.groups := by
        refine Finset.inter_eq_left.2 fun c hc => hgs c ?_
        exact mem_groups_of_parentOf ((hl.child_groups hg c).1 hc).1
      have hentries : g.entries ∩ es = g.entries := by
        refine Finset.inter_eq_left.2 fun j hj => hes j ?_
        obtain ⟨e, he, -⟩ := homeOf_eq_some.1 ((hl.child_entries hg j).1 hj)
        exact (mem_entries T).2 ⟨e, he⟩
      rw [if_pos (hgs i ((mem_groups T).2 ⟨g, hg⟩)), Option.map_some, Group.cut, hgroups, hentries]
      exact hg.symm
  · refine (h.entry j).trans ?_
    by_cases hj : j ∈ T.entries
    · exact if_pos (hes j hj)
    · rw [show T.entry j = none from Finmap.notMem_iff_lookup.1 hj]
      exact (ite_self none).trans (Finmap.notMem_iff_lookup.1 hj).symm

/-- The walk over a whole database meets every group and every entry once. -/
theorem Written.covers {orders : Orders} {icons : HashMap CustomIconId CustomIcon} {s t : KeyStream} {g : Group}
    {children : XmlChildren} (hl : Linked db)
    (hw : Written orders db icons db.groups.keys.card db.root s g children t)
    (hdepth : ∀ d y, Depth db.parentOf db.root d y → d < db.groups.keys.card) :
    (db.root :: children.groupIds).Nodup ∧ (∀ i, i ∈ db.groups → i ∈ db.root :: children.groupIds) ∧
      children.entryIds.Nodup ∧ ∀ j, j ∈ db.entries → j ∈ children.entryIds := by
  have hnodup : (db.root :: children.groupIds).Nodup := by
    rw [hw.groupIds]
    exact nodup_preorder (fun x y hy => (mem_subgroups hl x y).1 hy) nodup_subgroups hl.root_parent .self
  have hall : ∀ i, i ∈ db.groups → i ∈ db.root :: children.groupIds := fun i hi => by
    obtain ⟨d, hd⟩ := (hl.rooted hi).depth
    rw [hw.groupIds]
    exact mem_preorder (fun x y hy => (mem_subgroups hl x y).2 hy) hd (hdepth d i hd)
  refine ⟨hnodup, hall, ?_, fun j hj => ?_⟩
  · -- an entry is in one group
    rw [hw.entryIds.nodup_iff, ← hw.groupIds, List.nodup_flatMap]
    refine ⟨fun i _ => nodup_entriesIn i, hnodup.imp fun hne j hj hj' => hne ?_⟩
    exact Option.some.inj (((mem_entriesIn hl _ j).1 hj).symm.trans ((mem_entriesIn hl _ j).1 hj'))
  · obtain ⟨e, he⟩ := (mem_entries db).1 hj
    rw [hw.entryIds.mem_iff, ← hw.groupIds, List.mem_flatMap]
    exact ⟨e.parent, hall _ (hl.home he), (mem_entriesIn hl _ j).2 (homeOf_of_entry he)⟩

/-- A database that has only its root is a part. -/
theorem PartOf.rootOnly {T P : Database} {g : Group} (hl : Linked T) (hg : T.group T.root = some g)
    (hgroups : P.groups = Finmap.singleton T.root { g with groups := ∅, entries := ∅ }) (hentries : P.entries = ∅) :
    PartOf T P {T.root} ∅ := by
  have hroot : ∀ i, i ∈ ({T.root} : Finset GroupId) → ∀ q, T.parentOf i ≠ some q := fun i hi q hq => by
    rw [Finset.mem_singleton.1 hi, hl.root_parent] at hq
    cases hq
  refine ⟨fun i => ?_, fun j => ?_, fun i hi q hq => absurd hq (hroot i hi q), fun j hj => absurd hj (Finset.notMem_empty j)⟩
  · rw [Database.group, hgroups]
    by_cases hi : i = T.root
    · subst hi
      have hnone : g.groups ∩ {T.root} = ∅ := by
        refine Finset.eq_empty_of_forall_notMem fun c hc => ?_
        obtain ⟨hc, hcr⟩ := Finset.mem_inter.1 hc
        exact hroot c hcr _ ((hl.child_groups hg c).1 hc).1
      rw [if_pos (Finset.mem_singleton_self _), hg, Option.map_some, Group.cut, hnone, Finset.inter_empty]
      exact Finmap.lookup_singleton_eq
    · rw [if_neg fun hin => hi (Finset.mem_singleton.1 hin)]
      exact Finmap.notMem_iff_lookup.1 fun hin => hi ((Finmap.mem_singleton _ _ _).1 hin)
  · rw [Database.entry, hentries, if_neg (Finset.notMem_empty j), Finmap.lookup_empty]

/-- The deletions of the document of a database. -/
theorem readDeleted (deleted : HashMap Uuid (Option NaiveDateTime)) (walk : Enumeration Uuid) :
    ((if deleted = ∅ then none else some (deleted.items walk)).getD []).foldl
      (fun (m : HashMap Uuid (Option NaiveDateTime)) x => m.insert x.1 x.2) ∅ = deleted := by
  by_cases hnone : deleted = ∅
  · rw [if_pos hnone, hnone]
    rfl
  · rw [if_neg hnone]
    exact Finmap.foldl_insert_items walk deleted

/-- What is in the `Meta` element besides the icons. -/
theorem readMeta (customData : HashMap String CustomDataItem) :
    (customData.mapVals CustomDataItem.write).mapVals CustomDataItem.reread =
      customData.mapVals fun item => item.write.reread := by
  refine Finmap.ext_lookup fun k => ?_
  rw [Finmap.lookup_mapVals, Finmap.lookup_mapVals, Finmap.lookup_mapVals, Option.map_map]
  rfl

/-- The document without the children of the root is read as the root of what is kept. -/
theorem rootOnly_document (hicons : ∀ cid icon, db.customIcons.lookup cid = some icon → icon.id = cid) (orders : Orders)
    (config : DatabaseConfig) {g : Group} (hgid : g.id = db.root) (hgp : g.parent = none) (children : XmlChildren) :
    (db.document orders g.toXml children).reread.rootOnly config = {
      config := config
      «meta» := db.kept.meta
      root := db.root
      groups := Finmap.singleton db.root { (g.read db.customIcons).settle with groups := ∅, entries := ∅ }
      deletedObjects := db.deletedObjects } := by
  have hicons' : (db.document orders g.toXml children).reread.icons = db.customIcons.mapVals CustomIcon.unlinked :=
    icons_document hicons orders g.toXml children
  have hgroup : g.toXml.reread.toDb (db.customIcons.mapVals CustomIcon.unlinked) none =
      { (g.read db.customIcons).settle with groups := ∅, entries := ∅ } := by
    rw [← hgp]
    exact readGroup (fun cid => Finmap.mem_mapVals) g
  unfold XmlFile.rootOnly
  rw [hicons']
  dsimp only [XmlFile.reread, document]
  rw [readMeta, readDeleted, hgroup, show g.toXml.reread.uuid = db.root from hgid]
  rfl

/-- A linked database has a document in whatever orders its sets are walked, and the document is read as what the format
keeps of the database. -/
theorem readDocument (orders : Orders) (gunzip : Bytes → Option Bytes) (config : DatabaseConfig) (hl : Linked db)
    (hicons : ∀ cid icon, db.customIcons.lookup cid = some icon → icon.id = cid) (s : KeyStream) :
    ∃ file, dbToXml orders db s = .ok file ∧
      file.reread.toDb gunzip config (toXml db).headerAttachments s = .ok { db.kept with config := config } := by
  have hbelow : ∀ y, Below db.parentOf db.root y → y ∈ db.groups.keys := fun y hy => by
    refine Finmap.mem_keys.2 ?_
    rcases Below.iff_parent.1 hy with rfl | ⟨p, hp, -⟩
    · exact hl.root_mem
    · exact mem_groups_of_parentOf hp
  have hdepth : ∀ d y, Depth db.parentOf db.root d y → d < db.groups.keys.card := fun d y hd =>
    hd.lt_card hl.root_parent hbelow
  have hmem : ∀ cid, cid ∈ db.customIcons.mapVals CustomIcon.unlinked ↔ cid ∈ db.customIcons := fun cid =>
    Finmap.mem_mapVals
  obtain ⟨g, children, t, hw⟩ : ∃ g children t, Written orders db _ _ db.root s g children t :=
    written hl hmem hl.root_mem hdepth s
  obtain ⟨hnodup, hall, hentries, hallEntries⟩ := hw.covers hl hdepth
  rw [List.nodup_cons] at hnodup
  have hlk : Linked db.kept := db.sameTree_kept.linkedBut hl
  have hg : db.kept.group db.root = some (g.read db.customIcons).settle := by
    rw [db.group_kept, hw.group, Option.map_some]
  have hgp : g.parent = none := (parentOf_of_group hw.group).symm.trans hl.root_parent
  have hgid : g.id = db.root := hl.group_id hw.group
  have hstart := rootOnly_document hicons orders config hgid hgp children
  have hroot : PartOf db.kept ((db.document orders g.toXml children).reread.rootOnly config) {db.root} ∅ := by
    rw [hstart]
    exact .rootOnly hlk hg rfl rfl
  obtain ⟨P, hread, hpart, hrest⟩ := hw.agrees.read hlk hroot (Finset.mem_singleton_self _)
    (by rw [XmlChildren.groupIds_reread]; exact hnodup.2)
    (by rw [XmlChildren.entryIds_reread]; exact hentries)
    (fun i hi hroot => hnodup.1 (by
      rw [XmlChildren.groupIds_reread] at hi
      rwa [← Finset.mem_singleton.1 hroot]))
    fun j _ => Finset.notMem_empty j
  obtain ⟨hgroups, hentries'⟩ := hpart.whole hlk
    (fun i hi => by
      rw [XmlChildren.groupIds_reread, Finset.mem_union, List.mem_toFinset, Finset.mem_singleton, ← List.mem_cons]
      exact hall i (db.sameTree_kept.mem_groups_iff.1 hi))
    (fun j hj => by
      rw [XmlChildren.entryIds_reread, Finset.mem_union, List.mem_toFinset]
      exact .inr (hallEntries j (db.sameTree_kept.mem_entries_iff.1 hj)))
  refine ⟨db.document orders g.toXml children, ?_, ?_⟩
  · rw [dbToXml, hw.eq]
    rfl
  · have hicons' : (db.document orders g.toXml children).reread.icons = db.customIcons.mapVals CustomIcon.unlinked :=
      icons_document hicons orders g.toXml children
    unfold XmlFile.toDb
    rw [hicons', show (db.document orders g.toXml children).reread.root.uuid = db.root from hgid]
    change (children.reread.toDb (filePool (toXml db)) (db.customIcons.mapVals CustomIcon.unlinked) db.root
      ((db.document orders g.toXml children).reread.rootOnly config, s)).bind _ = _
    rw [hread, Except.bind, hrest, hgroups, hentries', hstart]
    refine congrArg Except.ok ?_
    dsimp only
    rw [customIcons_kept]
    rfl

end

namespace Kdbx4

/-! ## Files -/

/-- `quick_xml`: the text of a document, and the document in a text. -/
structure QuickXml where
  toStringWithRoot : XmlFile → Option Bytes
  fromReader : Bytes → Option XmlFile

/-- `to_xml`. -/
def databaseToXml (xml : QuickXml) (orders : Orders) (db : Database) : ToXml := fun stream => do
  let kdbx ← (dbToXml orders db stream).mapError fun _ => .panic
  (xml.toStringWithRoot kdbx).elim (.error (.error .serialization)) fun text => .ok (text, (toXml db).headerAttachments)

/-- `Database::save`, with the part of the configuration that a `Database` does not have. -/
def save (c : Crypto) (xml : QuickXml) (config : DatabaseConfig) (db : Database) (key : Falach.DatabaseKey) (walks : Walks)
    (orders : Orders) (draws : Draws config) : SaveRun Bytes :=
  match config.version with
  | .kdb4 _ => dumpKdbx4 c config (databaseToXml xml orders db) key walks draws
  | _ => .error (.error .unsupportedVersion)

/-- `parse_xml`. -/
def parseXml (c : Crypto) (xml : QuickXml) (config : DatabaseConfig) (data : Bytes)
    (headerAttachments : List (Value Bytes)) (innerDecryptor : KeyStream) : OpenRun Database :=
  match xml.fromReader data with
  | some kdbx => (kdbx.toDb (CompressionConfig.gzip.decompress c) ⟨config.kdfConfig.erase⟩ headerAttachments
      innerDecryptor).mapError (Unread.map fun e => .kdbx4 (.xml (.unprotect e)))
  | none => .error (.error (.kdbx4 (.xml .xml)))

def parseKdbx4 (c : Crypto) (xml : QuickXml) (data : Bytes) (key : Falach.DatabaseKey) :
    OpenRun (DatabaseConfig × Database) := do
  let decrypted ← decryptKdbx4 c data key
  let db ← parseXml c xml decrypted.config decrypted.xml decrypted.headerAttachments decrypted.innerDecryptor
  return (decrypted.config, db)

/-- The parsers of the formats before KDBX 4. -/
structure OlderFormats where
  parseKdb : Bytes → Falach.DatabaseKey → OpenRun (DatabaseConfig × Database)
  parseKdbx3 : Bytes → Falach.DatabaseKey → OpenRun (DatabaseConfig × Database)

/-- `Database::parse`, which is what `Database::open` does with the bytes of a file. -/
def parse (older : OlderFormats) (c : Crypto) (xml : QuickXml) (data : Bytes) (key : Falach.DatabaseKey) :
    OpenRun (DatabaseConfig × Database) := do
  match ← (DatabaseVersion.parse data).mapError fun e => .error (.versionParse e) with
  | .kdb _ => older.parseKdb data key
  | .kdb2 _ => .error (.error .unsupportedVersion)
  | .kdb3 _ => older.parseKdbx3 data key
  | .kdb4 _ => parseKdbx4 c xml data key

section

variable {c : Crypto} {xml : QuickXml} {older : OlderFormats} {config : DatabaseConfig} {db : Database}
  {key : Falach.DatabaseKey} {walks : Walks} {orders : Orders} {draws : Draws config} {bytes : Bytes}

/-- The text of the document in a file is read as the document: `quick_xml` reads what it writes, and reads nothing
behind it. -/
def ReadsText (xml : QuickXml) (c : Crypto) (config : DatabaseConfig) (db : Database) (orders : Orders)
    (draws : Draws config) : Prop :=
  ∀ kdbx text, dbToXml orders db (config.innerCipherConfig.getCipher c draws.innerRandomStreamKey.toList) = .ok kdbx →
    xml.toStringWithRoot kdbx = some text →
    xml.fromReader (content c config draws text (toXml db).headerAttachments).xml = some kdbx.reread

/-- A document that was converted was written as text. -/
theorem databaseToXml_ok {stream : KeyStream} {kdbx : XmlFile} {text : Bytes} {attachments : List (Value Bytes)}
    (hkdbx : dbToXml orders db stream = .ok kdbx) (h : databaseToXml xml orders db stream = .ok (text, attachments)) :
    xml.toStringWithRoot kdbx = some text ∧ attachments = (toXml db).headerAttachments := by
  rw [databaseToXml, hkdbx] at h
  change (xml.toStringWithRoot kdbx).elim _ _ = _ at h
  cases htext : xml.toStringWithRoot kdbx with
  | none =>
    rw [htext] at h
    cases h
  | some written =>
    rw [htext] at h
    obtain ⟨rfl, rfl⟩ := Prod.mk.inj (Except.ok.inj h)
    exact ⟨rfl, rfl⟩

theorem save_dumps (h : save c xml config db key walks orders draws = .ok bytes) :
    dumpKdbx4 c config (databaseToXml xml orders db) key walks draws = .ok bytes := by
  rw [save] at h
  split at h
  · exact h
  · cases h

/-- What is saved begins with a version. -/
theorem parse_version_save (h : save c xml config db key walks orders draws = .ok bytes) :
    ∃ minor, DatabaseVersion.parse bytes = .ok (.kdb4 minor) := by
  obtain ⟨d⟩ := exists_dumped (save_dumps h)
  have hstart := d.assembled
  rw [assemble, headerBytes, List.append_assoc] at hstart
  exact ⟨d.minor, (congrArg DatabaseVersion.parse hstart.symm).trans (DatabaseVersion.parse_dumpKdb4 d.minor _)⟩

/-- An empty file does not open. -/
theorem parse_nil : parse older c xml [] key = .error (.error (.versionParse .unexpectedEof)) := rfl

theorem save_ne_nil (h : save c xml config db key walks orders draws = .ok bytes) : bytes ≠ [] := by
  rintro rfl
  obtain ⟨minor, hversion⟩ := parse_version_save h
  cases hversion

/-- A saved database opens, with the key it was saved with, to what the format keeps of it: whatever was drawn, and in
whatever orders its maps and sets were walked. -/
theorem parse_save (hc : c.Lawful) (hl : Linked db)
    (hicons : ∀ cid icon, db.customIcons.lookup cid = some icon → icon.id = cid)
    (hattachments : ∀ a ∈ (toXml db).headerAttachments, a.get.length + 1 < 2 ^ 32)
    (hxml : ReadsText xml c config db orders draws) (h : save c xml config db key walks orders draws = .ok bytes)
    (hlen : bytes.length < 2 ^ 32) :
    parse older c xml bytes key = .ok (config, { db.kept with config := ⟨config.kdfConfig.erase⟩ }) := by
  obtain ⟨d⟩ := exists_dumped (save_dumps h)
  obtain ⟨kdbx, hkdbx, hread⟩ := readDocument orders (CompressionConfig.gzip.decompress c) ⟨config.kdfConfig.erase⟩ hl hicons
    (config.innerCipherConfig.getCipher c draws.innerRandomStreamKey.toList)
  obtain ⟨htext, hd⟩ := databaseToXml_ok hkdbx d.converted
  have hbytes : decryptKdbx4 c bytes key = .ok (content c config draws d.xml (toXml db).headerAttachments) := by
    rw [decryptKdbx4_assemble hc d.version d.derived d.assembled hlen,
      decryptPayload_encrypted hc (hd ▸ hattachments) d.encrypted, hd]
  obtain ⟨minor, hversion⟩ := parse_version_save h
  rw [parse, hversion]
  change parseKdbx4 c xml bytes key = _
  rw [parseKdbx4, hbytes]
  change (parseXml c xml config _ (toXml db).headerAttachments _).bind _ = _
  rw [parseXml, hxml kdbx d.xml hkdbx htext]
  dsimp only [content]
  rw [hread]
  rfl

end

/-! ### A database -/

def smallDatabase : Database where
  config := ⟨.aes 0⟩
  root := 0
  groups := Finmap.singleton 0 { id := 0, parent := none, name := "Root", entries := {1} }
  entries := Finmap.singleton 1 { id := 1, parent := 0, fields := Finmap.singleton "Password" (.«protected» "pw") }

def smallOrders : Orders :=
  ⟨fun _ => .sorted, fun _ => .sorted, fun _ _ => .sorted, fun _ _ => .sorted, .sorted, .sorted⟩

/-- The document of `smallDatabase`: without an inner cipher the password is in it in base64 only. -/
def smallText : Bytes := Text.utf8 ("<KeePassFile><Meta><CustomIcons/></Meta><Root><Group><UUID>AAAAAAAAAAAAAAAAAAAAAA==</UUID>" ++
  "<Name>Root</Name><Times/><IsExpanded>True</IsExpanded><EnableAutoType>null</EnableAutoType>" ++
  "<EnableSearching>null</EnableSearching><Entry><UUID>AAAAAAAAAAAAAAAAAAAAAQ==</UUID><Times/><String><Key>Password</Key>" ++
  "<Value Protected=\"True\">cHc=</Value></String></Entry></Group></Root></KeePassFile>").toList

def smallCrypto : Crypto := clearCrypto fun _ _ => List.replicate 32 0xff

theorem smallCrypto_lawful : smallCrypto.Lawful := clearCrypto_lawful fun _ _ => List.length_replicate

def smallDocument : Option XmlFile :=
  (dbToXml smallOrders smallDatabase
    (smallConfig.innerCipherConfig.getCipher smallCrypto smallDraws.innerRandomStreamKey.toList)).toOption

/-- `quick_xml` on the document of `smallDatabase`. -/
def smallQuickXml : QuickXml where
  toStringWithRoot _ := some smallText
  fromReader data := if smallText.isPrefixOf data then smallDocument.map XmlFile.reread else none

theorem group_smallDatabase {i : GroupId} {g : Group} (h : smallDatabase.group i = some g) :
    i = 0 ∧ g = { id := 0, parent := none, name := "Root", entries := {1} } := by
  obtain rfl := (Finmap.mem_singleton i 0 _).1 (Finmap.mem_of_lookup_eq_some h)
  exact ⟨rfl, (Option.some.inj (Finmap.lookup_singleton_eq.symm.trans h)).symm⟩

theorem entry_smallDatabase {j : EntryId} {e : Entry} (h : smallDatabase.entry j = some e) : j = 1 ∧
    e = { id := 1, parent := 0, fields := Finmap.singleton "Password" (.«protected» "pw") } := by
  obtain rfl := (Finmap.mem_singleton j 1 _).1 (Finmap.mem_of_lookup_eq_some h)
  exact ⟨rfl, (Option.some.inj (Finmap.lookup_singleton_eq.symm.trans h)).symm⟩

theorem smallDatabase_linked : Linked smallDatabase := by
  have hroot : (0 : GroupId) ∈ smallDatabase.groups := (Finmap.mem_singleton 0 0 _).2 rfl
  have hparent : ∀ i, smallDatabase.parentOf i = none := fun i => by
    cases hg : smallDatabase.group i with
    | none => rw [parentOf, hg, Option.bind_none]
    | some g =>
      obtain ⟨-, rfl⟩ := group_smallDatabase hg
      exact parentOf_of_group hg
  refine {
    entry_id := fun he => ?_
    group_id := fun hg => ?_
    root_mem := hroot
    root_parent := hparent 0
    rooted := fun hi => ?_
    home := fun he => ?_
    child_entries := fun hg j => ?_
    child_groups := fun hg j => ?_ }
  · obtain ⟨rfl, rfl⟩ := entry_smallDatabase he
    rfl
  · obtain ⟨rfl, rfl⟩ := group_smallDatabase hg
    rfl
  · obtain ⟨g, hg⟩ := (mem_groups smallDatabase).1 hi
    obtain ⟨rfl, -⟩ := group_smallDatabase hg
    exact .self
  · obtain ⟨-, rfl⟩ := entry_smallDatabase he
    exact hroot
  · obtain ⟨rfl, rfl⟩ := group_smallDatabase hg
    rw [Finset.mem_singleton, homeOf_eq_some]
    constructor
    · rintro rfl
      exact ⟨_, Finmap.lookup_singleton_eq, rfl⟩
    · rintro ⟨e, he, -⟩
      exact (entry_smallDatabase he).1
  · obtain ⟨rfl, rfl⟩ := group_smallDatabase hg
    refine iff_of_false (Finset.notMem_empty j) fun h => ?_
    rw [hparent] at h
    cases h.1

theorem small_readsText : ReadsText smallQuickXml smallCrypto smallConfig smallDatabase smallOrders smallDraws := by
  intro kdbx text hkdbx htext
  have hdocument : smallDocument = some kdbx := congrArg Except.toOption hkdbx
  obtain rfl := Option.some.inj htext
  have hprefix : smallText.isPrefixOf
      (content smallCrypto smallConfig smallDraws smallText (toXml smallDatabase).headerAttachments).xml = true :=
    List.isPrefixOf_iff_prefix.2 (List.prefix_append _ _)
  unfold smallQuickXml
  dsimp only
  rw [if_pos hprefix, hdocument, Option.map_some]

def smallSaved : Bytes :=
  match save smallCrypto smallQuickXml smallConfig smallDatabase smallKey smallWalks smallOrders smallDraws with
  | .ok bytes => bytes
  | .error _ => []

theorem smallSaved_saved : save smallCrypto smallQuickXml smallConfig smallDatabase smallKey smallWalks smallOrders
    smallDraws = .ok smallSaved := rfl

theorem smallDatabase_attachments : (toXml smallDatabase).headerAttachments = [] := by
  have hnone : smallDatabase.attachments.keys = ∅ := Finmap.keys_empty
  rw [toXml, hnone, Enumeration.list_empty, List.filterMap_nil]

theorem small_reopens : parse ⟨fun _ _ => .error (.error .kdb), fun _ _ => .error (.error .kdbx3)⟩ smallCrypto smallQuickXml
    smallSaved smallKey = .ok (smallConfig, { smallDatabase.kept with config := ⟨.aes 0⟩ }) :=
  parse_save smallCrypto_lawful smallDatabase_linked (fun _ _ h => by cases h)
    (by rw [smallDatabase_attachments]; exact fun _ h => absurd h List.not_mem_nil) small_readsText smallSaved_saved
    (by decide +kernel)

end Kdbx4

end Keepass
