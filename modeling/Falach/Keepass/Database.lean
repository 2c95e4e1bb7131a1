import Falach.Lib.Maps
/-!
# The decrypted database

The types of the vendored `keepass` crate: entries, groups, attachments and icons in flat maps keyed by
their identifiers, with the group tree held by parent links and by each group's sets of children.
-/

namespace Keepass

/-- An identifier. The code only compares identifiers, so their width does not matter. -/
abbrev Uuid := Nat
abbrev EntryId := Uuid
abbrev GroupId := Uuid
abbrev CustomIconId := Uuid
/-- A slot of the attachment pool. -/
abbrev AttachmentId := Nat
/-- Seconds since 1970: the file format keeps no fractions. -/
abbrev NaiveDateTime := Int
abbrev Bytes := List UInt8

structure Times where
  creation : Option NaiveDateTime := none
  lastModification : Option NaiveDateTime := none
  lastAccess : Option NaiveDateTime := none
  expiry : Option NaiveDateTime := none
  locationChanged : Option NaiveDateTime := none
  expires : Option Bool := none
  usageCount : Option Nat := none
deriving DecidableEq

namespace Times

def epoch : NaiveDateTime := 0

/-- `Times::new`, at the time `now`. -/
def new (now : NaiveDateTime) : Times where
  creation := some now
  lastModification := some now
  lastAccess := some now
  locationChanged := some now
  expires := some false
  usageCount := some 0

end Times

inductive Value (α : Type) where
  | unprotected (a : α)
  | «protected» (a : α)
deriving DecidableEq

def Value.get {α : Type} : Value α → α
  | .unprotected a => a
  | .«protected» a => a

structure Color where
  r : UInt8
  g : UInt8
  b : UInt8
deriving DecidableEq

structure AutoTypeAssociation where
  window : String
  sequence : String
deriving DecidableEq

structure AutoType where
  enabled : Bool
  defaultSequence : Option String
  dataTransferObfuscation : Option Bool
  associations : List AutoTypeAssociation
deriving DecidableEq

inductive CustomDataValue where
  | string (s : String)
  | binary (b : Bytes)
deriving DecidableEq

structure CustomDataItem where
  value : Option CustomDataValue
  lastModificationTime : Option NaiveDateTime
deriving DecidableEq

inductive Icon where
  | builtIn (i : Nat)
  | custom (id : CustomIconId)
deriving DecidableEq

/-- An entry without its history: the form entries have inside a history. -/
structure Version where
  id : EntryId
  parent : GroupId
  fields : HashMap String (Value String) := ∅
  autotype : Option AutoType := none
  tags : List String := []
  times : Times := {}
  customData : HashMap String CustomDataItem := ∅
  icon : Option Icon := none
  foregroundColor : Option Color := none
  backgroundColor : Option Color := none
  overrideUrl : Option String := none
  qualityCheck : Option Bool := none
  attachments : HashMap String AttachmentId := ∅
deriving DecidableEq

/-- History entries cannot have their own history: `History::add_entry` takes it off. -/
structure Entry extends Version where
  history : Option (List Version) := some []
deriving DecidableEq

structure Group where
  id : GroupId
  parent : Option GroupId
  name : String := ""
  notes : Option String := none
  icon : Option Icon := none
  groups : Finset GroupId := ∅
  entries : Finset EntryId := ∅
  times : Times := {}
  customData : HashMap String CustomDataItem := ∅
  isExpanded : Bool := true
  defaultAutotypeSequence : Option String := none
  enableAutotype : Option Bool := none
  enableSearching : Option Bool := none
  lastTopVisibleEntry : Option EntryId := none
deriving DecidableEq

/-- `entries`: the entries that refer to the attachment, with the index of the history version that does.
The parser leaves it empty. -/
structure Attachment where
  id : AttachmentId
  entries : Finset (EntryId × Option Nat) := ∅
  data : Value Bytes
deriving DecidableEq

structure CustomIcon where
  id : CustomIconId
  entries : Finset (EntryId × Option Nat) := ∅
  groups : Finset GroupId := ∅
  data : Bytes
deriving DecidableEq

inductive KdfConfig where
  | aes (rounds : Nat)
  | argon2 (iterations memory parallelism version : Nat)
  | argon2id (iterations memory parallelism version : Nat)
deriving DecidableEq

structure DatabaseConfig where
  kdfConfig : KdfConfig
deriving DecidableEq

structure Meta where
  recyclebinEnabled : Option Bool := none
  recyclebinUuid : Option Uuid := none
  recyclebinChanged : Option NaiveDateTime := none
  entryTemplatesGroup : Option Uuid := none
  lastSelectedGroup : Option Uuid := none
  lastTopVisibleGroup : Option Uuid := none
  historyMaxItems : Option Int := none
  customData : HashMap String CustomDataItem := ∅
deriving DecidableEq

structure Database where
  config : DatabaseConfig
  «meta» : Meta := {}
  root : GroupId
  attachments : HashMap AttachmentId Attachment := ∅
  customIcons : HashMap CustomIconId CustomIcon := ∅
  entries : HashMap EntryId Entry := ∅
  groups : HashMap GroupId Group
  deletedObjects : HashMap Uuid (Option NaiveDateTime) := ∅
deriving DecidableEq

namespace Database

def entry (db : Database) (id : EntryId) : Option Entry := db.entries.lookup id
def group (db : Database) (id : GroupId) : Option Group := db.groups.lookup id

/-- A database with a single root group. -/
def withData (config : DatabaseConfig) (rootId : GroupId) (now : NaiveDateTime) : Database where
  config := config
  root := rootId
  groups := Finmap.singleton rootId { id := rootId, parent := none, times := Times.new now }

end Database

end Keepass
