import Falach.Format.Kdbx4
import Falach.Format.XmlDb
/-!
# The XML document

The document inside a file: groups inside groups with their entries, and protected values encrypted one after the other
in the order of the document. It is written by walks over hash sets and hash maps in whatever order, and read from its
beginning to its end.
-/

namespace Keepass

open Cipher

/-! ## Elements -/

structure StringValue where
  «protected» : Bool
  value : Option String
deriving DecidableEq

/-- An `Entry` element without its history. -/
structure XmlVersion where
  uuid : EntryId
  iconId : Option Nat
  customIconUuid : Option CustomIconId
  foregroundColor : Option Color
  backgroundColor : Option Color
  overrideUrl : Option String
  tags : Option String
  times : Option Times
  stringFields : List (String × StringValue)
  binaryFields : List (String × AttachmentId)
  autoType : Option AutoType
  customData : Option (HashMap String CustomDataItem)
deriving DecidableEq

/-- An `Entry` element: in a history the elements have no history. -/
structure XmlEntry extends XmlVersion where
  history : Option (List XmlVersion)
deriving DecidableEq

/-- A `Group` element without its children. -/
structure XmlGroup where
  uuid : GroupId
  name : String
  notes : Option String
  iconId : Option Nat
  customIconUuid : Option CustomIconId
  times : Option Times
  isExpanded : Option Bool
  defaultAutoTypeSequence : Option String
  enableAutoType : Option Bool
  enableSearching : Option Bool
  lastTopVisibleEntry : Option EntryId
  customData : Option (HashMap String CustomDataItem)
deriving DecidableEq

/-- The children of a group in the order of the document, each group with its own children. -/
inductive XmlChildren where
  | nil
  | group (g : XmlGroup) (children rest : XmlChildren)
  | entry (e : XmlEntry) (rest : XmlChildren)

/-- A `Binary` element of an older file. -/
structure XmlBinary where
  value : String
  compressed : Option Bool
  «protected» : Option Bool

/-- The document. -/
structure XmlFile where
  «meta» : Meta
  binaries : Option (List XmlBinary)
  customIcons : Option (List (CustomIconId × Bytes))
  root : XmlGroup
  children : XmlChildren
  deletedObjects : Option (List (Uuid × Option NaiveDateTime))

/-! ## Writing -/

/-- The orders in which hash sets and hash maps are walked: each has its own. -/
structure Orders where
  groups : GroupId → Enumeration GroupId
  entries : GroupId → Enumeration EntryId
  fields : EntryId → Nat → Enumeration String
  binaries : EntryId → Nat → Enumeration String
  icons : Enumeration CustomIconId
  deleted : Enumeration Uuid

def iconIds : Option Icon → Option Nat × Option CustomIconId
  | some (.custom cid) => (none, some cid)
  | some (.builtIn i) => (some i, none)
  | none => (none, none)

/-- A custom data item always has a value in the document. -/
def CustomDataItem.write (item : CustomDataItem) : CustomDataItem :=
  { item with value := some (item.value.getD (.string "")) }

/-- `CustomData` of an element, if there is any. -/
def writeCustomData (customData : HashMap String CustomDataItem) : Option (HashMap String CustomDataItem) :=
  if customData = ∅ then none else some (customData.mapVals CustomDataItem.write)

/-- A string field; what is protected is encrypted where the stream is. -/
def fieldToXml (field : String × Value String) (stream : KeyStream) : Except Fault ((String × StringValue) × KeyStream) :=
  match field.2 with
  | .«protected» s =>
    let (encrypted, stream) := stream.apply (Text.utf8 s.toList)
    .ok ((field.1, ⟨true, some (String.ofList (Base64.encode encrypted))⟩), stream)
  | .unprotected s => .ok ((field.1, ⟨false, some s⟩), stream)

/-- `Entry::db_to_xml` for one version, with its number. -/
def Version.toXml (orders : Orders) (id : EntryId) (v : Nat × Version) (stream : KeyStream) :
    Except Fault (XmlVersion × KeyStream) := do
  let (iconId, customIconUuid) := iconIds v.2.icon
  let (stringFields, stream) ← Loop.mapThrough fieldToXml (v.2.fields.items (orders.fields id v.1)) stream
  return ({
    uuid := v.2.id
    iconId := iconId
    customIconUuid := customIconUuid
    foregroundColor := v.2.foregroundColor
    backgroundColor := v.2.backgroundColor
    overrideUrl := v.2.overrideUrl
    tags := writeTags v.2.tags
    times := some v.2.times
    stringFields := stringFields
    binaryFields := v.2.attachments.items (orders.binaries id v.1)
    autoType := v.2.autotype
    customData := writeCustomData v.2.customData }, stream)

/-- `Entry::db_to_xml`: the history comes after the fields of the entry. -/
def entryToXml (orders : Orders) (db : Database) (id : EntryId) (stream : KeyStream) :
    Except Fault (XmlEntry × KeyStream) := do
  let e ← expect (db.entry id)
  let (version, stream) ← Version.toXml orders id (0, e.toVersion) stream
  match e.history with
  | none => return (⟨version, none⟩, stream)
  | some history =>
    let (versions, stream) ← Loop.mapThrough (Version.toXml orders id) ((history.zipIdx 1).map Prod.swap) stream
    return (⟨version, some versions⟩, stream)

/-- The element of a group. -/
def Group.toXml (g : Group) : XmlGroup where
  uuid := g.id
  name := g.name
  notes := g.notes
  iconId := (iconIds g.icon).1
  customIconUuid := (iconIds g.icon).2
  times := some g.times
  isExpanded := some g.isExpanded
  defaultAutoTypeSequence := g.defaultAutotypeSequence
  enableAutoType := g.enableAutotype
  enableSearching := g.enableSearching
  lastTopVisibleEntry := g.lastTopVisibleEntry
  customData := writeCustomData g.customData

/-- The groups among the children come first. -/
def XmlChildren.ofLists (groups : List (XmlGroup × XmlChildren)) (entries : List XmlEntry) : XmlChildren :=
  groups.foldr (fun g rest => .group g.1 g.2 rest) (entries.foldr .entry .nil)

/-- `Group::db_to_xml`; the recursion has no bound, and the first argument is one. -/
def groupToXml (orders : Orders) (db : Database) : Nat → GroupId → KeyStream →
    Except Fault ((XmlGroup × XmlChildren) × KeyStream)
  | 0, _, _ => .error .panic
  | n + 1, id, stream => do
    let g ← expect (db.group id)
    let (groups, stream) ← Loop.mapThrough (groupToXml orders db n) ((orders.groups id).list g.groups) stream
    let (entries, stream) ← Loop.mapThrough (entryToXml orders db) ((orders.entries id).list g.entries) stream
    return ((g.toXml, .ofLists groups entries), stream)

/-- The document of a database whose groups are written. -/
def Database.document (orders : Orders) (db : Database) (root : XmlGroup) (children : XmlChildren) : XmlFile where
  «meta» := { db.meta with customData := db.meta.customData.mapVals CustomDataItem.write }
  binaries := none
  customIcons := some ((db.customIcons.items orders.icons).map fun icon => (icon.2.id, icon.2.data))
  root := root
  children := children
  deletedObjects := if db.deletedObjects = ∅ then none else some (db.deletedObjects.items orders.deleted)

/-- `KeePassFile::db_to_xml`; no group is deeper than there are groups. -/
def dbToXml (orders : Orders) (db : Database) (stream : KeyStream) : Except Fault XmlFile := do
  let ((root, children), _) ← groupToXml orders db db.groups.keys.card db.root stream
  return db.document orders root children

/-! ## What the XML says -/

/-- A text that is base64 is read as bytes. -/
def CustomDataValue.reread : CustomDataValue → CustomDataValue
  | .string s => ((Base64.decode s.toList).map .binary).getD (.string s)
  | .binary b => .binary b

def CustomDataItem.reread (item : CustomDataItem) : CustomDataItem :=
  { item with value := item.value.map CustomDataValue.reread }

/-- An element as it is in the text: optional texts of white space are missing. -/
def XmlVersion.reread (v : XmlVersion) : XmlVersion :=
  { v with
    overrideUrl := readText v.overrideUrl
    tags := readText v.tags
    stringFields := v.stringFields.map fun f => (f.1, { f.2 with value := readText f.2.value })
    autoType := v.autoType.map fun a => { a with defaultSequence := readText a.defaultSequence }
    customData := v.customData.map fun customData => customData.mapVals CustomDataItem.reread }

def XmlEntry.reread (e : XmlEntry) : XmlEntry :=
  ⟨e.toXmlVersion.reread, e.history.map fun history => history.map XmlVersion.reread⟩

def XmlGroup.reread (g : XmlGroup) : XmlGroup :=
  { g with
    notes := readText g.notes
    defaultAutoTypeSequence := readText g.defaultAutoTypeSequence
    customData := g.customData.map fun customData => customData.mapVals CustomDataItem.reread }

def XmlChildren.reread : XmlChildren → XmlChildren
  | .nil => .nil
  | .group g children rest => .group g.reread children.reread rest.reread
  | .entry e rest => .entry e.reread rest.reread

def XmlFile.reread (file : XmlFile) : XmlFile :=
  { file with
    «meta» := { file.meta with customData := file.meta.customData.mapVals CustomDataItem.reread }
    root := file.root.reread
    children := file.children.reread }

/-! ## Reading -/

abbrev ReadRun (α : Type) := Except (Unread Kdbx4.UnprotectError) α

/-- The custom icon if there is one, and else the number of a built-in one. -/
def readIconIds (icons : HashMap CustomIconId CustomIcon) (iconId : Option Nat) (customIconUuid : Option CustomIconId) :
    Option Icon :=
  match customIconUuid.filter fun cid => cid ∈ icons with
  | some cid => some (.custom cid)
  | none => iconId.map .builtIn

/-- `decode`. -/
def decodeBase64 (s : String) : ReadRun Bytes :=
  match Base64.decode s.toList with
  | some bytes => .ok bytes
  | none => .error (.error .base64)

/-- A string field: what is protected is decrypted where the stream is. -/
def readField (s : HashMap String (Value String) × KeyStream) (field : String × StringValue) :
    ReadRun (HashMap String (Value String) × KeyStream) :=
  match field.2.value with
  | none => .ok s
  | some fval =>
    if field.2.protected then do
      let bytes ← decodeBase64 fval
      let (plain, stream) := s.2.apply bytes
      return (s.1.insert field.1 (.«protected» (String.ofList (Text.fromUtf8Lossy plain))), stream)
    else .ok (s.1.insert field.1 (.unprotected fval), s.2)

/-- `Entry::xml_to_db_handle` for one version, which is in the group `parent`. -/
def XmlVersion.toDb (pool : HashMap AttachmentId Attachment) (icons : HashMap CustomIconId CustomIcon) (parent : GroupId)
    (x : XmlVersion) (stream : KeyStream) : ReadRun (Version × KeyStream) := do
  let (fields, stream) ← x.stringFields.foldlM readField (∅, stream)
  return ({
    id := x.uuid
    parent := parent
    fields := fields
    autotype := x.autoType
    tags := (x.tags.map fun t => (t.toList.splitOn ',').map String.ofList).getD []
    times := x.times.getD {}
    customData := x.customData.getD ∅
    icon := readIconIds icons x.iconId x.customIconUuid
    foregroundColor := x.foregroundColor
    backgroundColor := x.backgroundColor
    overrideUrl := x.overrideUrl
    attachments := (x.binaryFields.filter fun f => f.2 ∈ pool).foldl (fun m f => m.insert f.1 f.2) ∅ }, stream)

/-- `Entry::xml_to_db_handle`; an entry without a `History` element keeps the empty one it was made with. -/
def XmlEntry.toDb (pool : HashMap AttachmentId Attachment) (icons : HashMap CustomIconId CustomIcon) (parent : GroupId)
    (x : XmlEntry) (stream : KeyStream) : ReadRun (Entry × KeyStream) := do
  let (version, stream) ← x.toXmlVersion.toDb pool icons parent stream
  match x.history with
  | none => return (⟨version, some []⟩, stream)
  | some history =>
    let (versions, stream) ← Loop.mapThrough (XmlVersion.toDb pool icons parent) history stream
    return (⟨version, some versions⟩, stream)

/-- The fields of a group that are in its element. -/
def XmlGroup.toDb (icons : HashMap CustomIconId CustomIcon) (parent : Option GroupId) (x : XmlGroup) : Group where
  id := x.uuid
  parent := parent
  name := x.name
  notes := x.notes
  icon := readIconIds icons x.iconId x.customIconUuid
  times := x.times.getD {}
  customData := x.customData.getD ∅
  isExpanded := x.isExpanded.getD false
  defaultAutotypeSequence := x.defaultAutoTypeSequence
  enableAutotype := x.enableAutoType
  enableSearching := x.enableSearching
  lastTopVisibleEntry := x.lastTopVisibleEntry

/-- The children of the group `parent` are added to the database in the order of the document. -/
def XmlChildren.toDb (pool : HashMap AttachmentId Attachment) (icons : HashMap CustomIconId CustomIcon) :
    XmlChildren → GroupId → Database × KeyStream → ReadRun (Database × KeyStream)
  | .nil, _, s => .ok s
  | .group g children rest, parent, (db, stream) => do
    let db ← (db.addGroupWithId parent g.uuid (g.toDb icons (some parent))).mapError fun _ => .panic
    let s ← children.toDb pool icons g.uuid (db, stream)
    rest.toDb pool icons parent s
  | .entry e rest, parent, (db, stream) => do
    let db ← (db.addEntryWithId parent e.uuid { id := e.uuid, parent := parent }).mapError fun _ => .panic
    let (target, stream) ← e.toDb pool icons parent stream
    rest.toDb pool icons parent (db.modifyEntry e.uuid fun _ => target, stream)

/-- `Binary::xml_to_db`, with `decompress`. -/
def XmlBinary.toDb (gunzip : Bytes → Option Bytes) (x : XmlBinary) (stream : KeyStream) :
    ReadRun (Value Bytes × KeyStream) := do
  let data ← decodeBase64 x.value
  let (data, stream) := if x.protected.getD false then stream.apply data else (data, stream)
  let data ← if x.compressed.getD false then
      match gunzip data with
      | some data => .ok data
      | none => .error (.error .io)
    else .ok data
  return (if x.protected.getD false then .«protected» data else .unprotected data, stream)

/-- The icons of a document. -/
def XmlFile.icons (file : XmlFile) : HashMap CustomIconId CustomIcon :=
  (file.customIcons.getD []).foldl (fun icons icon => icons.insert icon.1 { id := icon.1, data := icon.2 }) ∅

/-- What a document says besides the children of the root. -/
def XmlFile.rootOnly (config : DatabaseConfig) (file : XmlFile) : Database where
  config := config
  «meta» := file.meta
  root := file.root.uuid
  groups := Finmap.singleton file.root.uuid (file.root.toDb file.icons none)
  deletedObjects := (file.deletedObjects.getD []).foldl (fun m x => m.insert x.1 x.2) ∅

/-- `KeePassFile::xml_to_db`. -/
def XmlFile.toDb (gunzip : Bytes → Option Bytes) (config : DatabaseConfig) (headerAttachments : List (Value Bytes))
    (file : XmlFile) (stream : KeyStream) : ReadRun Database := do
  let (binaries, stream) ← Loop.mapThrough (XmlBinary.toDb gunzip) (file.binaries.getD []) stream
  let db := file.rootOnly config
  let pool := filePool { tree := db, binaries := binaries, headerAttachments := headerAttachments }
  let (db, _) ← file.children.toDb pool file.icons file.root.uuid (db, stream)
  return { db with
    attachments := pool
    customIcons := file.icons.mapVals (·.linkBack db.entries db.groups) }

end Keepass
