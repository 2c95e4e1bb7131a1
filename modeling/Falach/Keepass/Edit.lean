import Mathlib.Data.String.Basic
import Falach.Lib.Loops
import Falach.Keepass.Database
/-!
# Editing a database

The edits of `EntryMut`, `GroupMut` and `AttachmentMut` that the merge makes. `.error .panic` is a panic, or
a recursion that never ends: both end the run with nothing returned.
-/

namespace Keepass

/-! ## What a run is given from outside -/

/-- The places of the code that walk a hash set or read the clock. -/
inductive Site where
  | groupsToAdd | groupsToDelete | groupsInBoth
  | entriesToAdd | entriesToDelete | entriesInBoth
  | childEntries | childGroups | namesToDetach
  | walkBefore | walkLocal | walkRemote | walkAfter
  | repairAdded | propagateBothSides
deriving DecidableEq

/-- The order each place walks its hash sets in, and the time each place reads for an object. -/
structure Env where
  ids : Site → Enumeration Uuid
  names : Site → EntryId → Enumeration String
  now : Site → Uuid → NaiveDateTime

/-- Every walk in increasing order, and a clock that stands still. -/
def Env.inOrder (now : NaiveDateTime) : Env where
  ids _ := Enumeration.sorted
  names _ _ := Enumeration.sorted
  now _ _ := now

inductive MoveGroupError where
  | cannotMoveRoot
  | notFound (id : GroupId)
  | wouldCreateCycle
deriving DecidableEq

inductive MergeError where
  | entryModificationTimeNotUpdated (id : EntryId)
  | groupModificationTimeNotUpdated (id : GroupId)
  | moveGroupError (e : MoveGroupError)
deriving DecidableEq

/-- How a call can fail to return: an error leaves the database as the failed call had changed it so far. -/
inductive Fault where
  | panic
  | merge (e : MergeError) (left : Database)
deriving DecidableEq

/-- `unwrap` and `expect`. -/
def expect {α : Type} : Option α → Except Fault α
  | some a => .ok a
  | none => .error .panic

@[simp] theorem expect_ok {α : Type} {o : Option α} {a : α} : expect o = .ok a ↔ o = some a := by
  cases o <;> simp [expect]

namespace Database

/-! ## The pool -/

/-- The first id from `i` on that is not in `used`; `n` rounds reach it. -/
def firstFree (used : Finset Nat) : Nat → Nat → Nat
  | 0, i => i
  | n + 1, i => if i ∈ used then firstFree used n (i + 1) else i

/-- `AttachmentId::next_free`. -/
def nextFree (db : Database) : AttachmentId := firstFree db.attachments.keys db.attachments.keys.card 0

/-- Drop entry `id`'s back-references from attachment `att`, and the attachment with the last one.
`AttachmentMut::remove` visits the back-references left, so here none. -/
def dropReference (db : Database) (id : EntryId) (att : AttachmentId) : Database :=
  match db.attachments.lookup att with
  | none => db
  | some a =>
    let left := a.entries.filter fun x => x.1 ≠ id
    if left = ∅ then { db with attachments := db.attachments.erase att }
    else { db with attachments := db.attachments.insert att { a with entries := left } }

/-- Rewrite the entry `id`. -/
def modifyEntry (db : Database) (id : EntryId) (f : Entry → Entry) : Database :=
  { db with entries := db.entries.modify id f }

/-- Rewrite the group `id`. -/
def modifyGroup (db : Database) (id : GroupId) (f : Group → Group) : Database :=
  { db with groups := db.groups.modify id f }

section

variable (db : Database) (id : Uuid) (f : Entry → Entry) (g : Group → Group) (att : AttachmentId)

@[simp] theorem entry_modifyEntry (i : EntryId) :
    (db.modifyEntry id f).entry i = if i = id then (db.entry id).map f else db.entry i :=
  Finmap.lookup_modify id i f db.entries

@[simp] theorem group_modifyGroup (i : GroupId) :
    (db.modifyGroup id g).group i = if i = id then (db.group id).map g else db.group i :=
  Finmap.lookup_modify id i g db.groups

@[simp] theorem group_modifyEntry (i : GroupId) : (db.modifyEntry id f).group i = db.group i := rfl
@[simp] theorem entry_modifyGroup (i : EntryId) : (db.modifyGroup id g).entry i = db.entry i := rfl
@[simp] theorem root_modifyEntry : (db.modifyEntry id f).root = db.root := rfl
@[simp] theorem root_modifyGroup : (db.modifyGroup id g).root = db.root := rfl
@[simp] theorem groups_modifyEntry : (db.modifyEntry id f).groups = db.groups := rfl
@[simp] theorem entries_modifyGroup : (db.modifyGroup id g).entries = db.entries := rfl
@[simp] theorem attachments_modifyEntry : (db.modifyEntry id f).attachments = db.attachments := rfl
@[simp] theorem attachments_modifyGroup : (db.modifyGroup id g).attachments = db.attachments := rfl
@[simp] theorem deletedObjects_modifyEntry : (db.modifyEntry id f).deletedObjects = db.deletedObjects := rfl
@[simp] theorem deletedObjects_modifyGroup : (db.modifyGroup id g).deletedObjects = db.deletedObjects := rfl

theorem mem_entries {i : EntryId} : i ∈ db.entries ↔ ∃ e, db.entry i = some e := Finmap.mem_iff

theorem mem_groups {i : GroupId} : i ∈ db.groups ↔ ∃ g, db.group i = some g := Finmap.mem_iff

/-- Only the pool changes. -/
theorem dropReference_eq : ∃ pool, db.dropReference id att = { db with attachments := pool } := by
  unfold dropReference
  split
  · exact ⟨db.attachments, rfl⟩
  · dsimp only
    split
    · exact ⟨_, rfl⟩
    · exact ⟨_, rfl⟩

@[simp] theorem entries_dropReference : (db.dropReference id att).entries = db.entries := by
  obtain ⟨pool, h⟩ := dropReference_eq db id att; rw [h]

@[simp] theorem groups_dropReference : (db.dropReference id att).groups = db.groups := by
  obtain ⟨pool, h⟩ := dropReference_eq db id att; rw [h]

@[simp] theorem root_dropReference : (db.dropReference id att).root = db.root := by
  obtain ⟨pool, h⟩ := dropReference_eq db id att; rw [h]

@[simp] theorem deletedObjects_dropReference : (db.dropReference id att).deletedObjects = db.deletedObjects := by
  obtain ⟨pool, h⟩ := dropReference_eq db id att; rw [h]

@[simp] theorem entry_dropReference (i : EntryId) : (db.dropReference id att).entry i = db.entry i := by
  simp [entry]

@[simp] theorem group_dropReference (i : GroupId) : (db.dropReference id att).group i = db.group i := by
  simp [group]

end

/-- `EntryMut::remove_attachment_by_id`. -/
def removeAttachmentById (db : Database) (id : EntryId) (att : AttachmentId) : Database :=
  (db.modifyEntry id fun e => { e with attachments := e.attachments.filterVals (· ≠ att) }).dropReference id att

/-- `EntryMut::remove_attachment_by_name`. -/
def removeAttachmentByName (db : Database) (id : EntryId) (name : String) : Except Fault Database := do
  let e ← expect (db.entry id)
  match e.attachments.lookup name with
  | none => return db
  | some att =>
    return (db.modifyEntry id fun e => { e with attachments := e.attachments.erase name }).dropReference id att

/-- `EntryMut::add_attachment`. -/
def addAttachment (db : Database) (id : EntryId) (name : String) (data : Value Bytes) : Except Fault Database := do
  let att := db.nextFree
  let db := { db with attachments := db.attachments.insert att { id := att, entries := {(id, none)}, data := data } }
  let e ← expect (db.entry id)
  let db := db.modifyEntry id fun e => { e with attachments := e.attachments.insert name att }
  -- if there was an old attachment with this name, remove it
  match e.attachments.lookup name with
  | some oldId => return db.removeAttachmentById id oldId
  | none => return db

/-! ## Icons -/

/-- Drop the back-reference of an entry version from its custom icon. -/
def releaseEntryIcon (db : Database) (id : EntryId) (historyIndex : Option Nat) : Option Icon → Database
  | some (.custom icon) =>
    { db with customIcons := db.customIcons.modify icon fun c => {
      c with entries := c.entries.erase (id, historyIndex) } }
  | _ => db

/-- Drop the back-reference of a group from its custom icon. -/
def releaseGroupIcon (db : Database) (id : GroupId) : Option Icon → Database
  | some (.custom icon) =>
    { db with customIcons := db.customIcons.modify icon fun c => { c with groups := c.groups.erase id } }
  | _ => db

/-- The icons of the history versions of an entry, released one by one. -/
def releaseHistoryIcons (db : Database) (id : EntryId) (history : List Version) : Database :=
  history.zipIdx.foldl (fun db v => db.releaseEntryIcon id (some v.2) v.1.icon) db

/-! ## Entries -/

/-- `EntryMut::move_to`; `none` when the destination group does not exist. -/
def moveEntryTo (db : Database) (id : EntryId) (groupId : GroupId) : Except Fault (Option Database) :=
  if groupId ∈ db.groups then do
    let e ← expect (db.entry id)
    let _ ← expect (db.group e.parent)
    let db := db.modifyGroup e.parent fun g => { g with entries := g.entries.erase id }
    let db := db.modifyGroup groupId fun g => { g with entries := insert id g.entries }
    return some (db.modifyEntry id fun e => { e with parent := groupId })
  else return none

/-- `EntryMut::remove`. The attachments of the entry must all be in the pool. -/
def removeEntry (env : Env) (db : Database) (id : EntryId) : Except Fault Database := do
  let e ← expect (db.entry id)
  let db := db.releaseEntryIcon id none e.icon
  let db := db.releaseHistoryIcons id (e.history.getD [])
  let db ← ((env.names .namesToDetach id).list e.attachments.keys).foldlM (fun db name => do
    let att ← expect (e.attachments.lookup name)
    let _ ← expect (db.attachments.lookup att)
    return db.dropReference id att) db
  let db := { db with entries := db.entries.erase id }
  let _ ← expect (db.group e.parent)
  let db := db.modifyGroup e.parent fun g => { g with entries := g.entries.erase id }
  -- clear any group's last_top_visible_entry that pointed to this entry
  return { db with groups := db.groups.mapVals fun g =>
    if g.lastTopVisibleEntry = some id then { g with lastTopVisibleEntry := none } else g }

/-- `GroupMut::add_entry_with_id`, and the new entry then overwritten by `entry`. -/
def addEntryWithId (db : Database) (parent : GroupId) (id : EntryId) (entry : Entry) : Except Fault Database :=
  if id ∈ db.entries then .error .panic
  else .ok { db.modifyGroup parent fun g => { g with entries := insert id g.entries } with
    entries := db.entries.insert id entry }

/-! ## Groups -/

/-- `GroupMut::add_group_with_id`, and the new group then filled in as `group`. -/
def addGroupWithId (db : Database) (parent : GroupId) (id : GroupId) (group : Group) : Except Fault Database :=
  if id ∈ db.groups then .error .panic
  else .ok { db with groups := (db.groups.modify parent fun g => {
    g with groups := insert id g.groups }).insert id group }

/-- Whether the walk up from `current` meets `id`; `none` when it has not ended after `n` groups. -/
def meetsUpwards (db : Database) (id : GroupId) : Nat → Option GroupId → Option Bool
  | _, none => some false
  | 0, some _ => none
  | n + 1, some current =>
    if current = id then some true else meetsUpwards db id n ((db.group current).bind (·.parent))

/-- `GroupMut::move_to`. -/
def moveGroupTo (db : Database) (id newParent : GroupId) : Except Fault (Except MoveGroupError Database) := do
  let g ← expect (db.group id)
  match g.parent with
  | none => return .error .cannotMoveRoot
  | some oldParent =>
    if newParent ∉ db.groups then return .error (.notFound newParent)
    if ← expect (db.meetsUpwards id (db.groups.keys.card + 1) (some newParent)) then return .error .wouldCreateCycle
    let _ ← expect (db.group oldParent)
    let db := db.modifyGroup oldParent fun g => { g with groups := g.groups.erase id }
    let db := db.modifyGroup newParent fun g => { g with groups := insert id g.groups }
    return .ok (db.modifyGroup id fun g => { g with parent := some newParent })

/-- Clear the fields of the metadata that name the group `id`. -/
def clearMetaReferences (m : Meta) (id : GroupId) : Meta :=
  let clear (o : Option Uuid) := if o = some id then none else o
  { m with
    recyclebinUuid := clear m.recyclebinUuid
    entryTemplatesGroup := clear m.entryTemplatesGroup
    lastSelectedGroup := clear m.lastSelectedGroup
    lastTopVisibleGroup := clear m.lastTopVisibleGroup }

/-- `GroupMut::remove`; `n` bounds the depth of the recursion. -/
def removeGroup (env : Env) : Nat → Database → GroupId → Except Fault Database
  | 0, _, _ => .error .panic
  | n + 1, db, id => do
    let g ← expect (db.group id)
    let db := (db.releaseGroupIcon id g.icon).modifyGroup id fun g => { g with icon := none }
    let db := match g.parent with
      | some p => db.modifyGroup p fun g => { g with groups := g.groups.erase id }
      | none => db
    let db ← ((env.ids .childEntries).list g.entries).foldlM (fun db e =>
      if e ∈ db.entries then removeEntry env db e else return db) db
    let g ← expect (db.group id)
    let db ← ((env.ids .childGroups).list g.groups).foldlM (fun db c =>
      if c ∈ db.groups then removeGroup env n db c else return db) db
    return { db with groups := db.groups.erase id, «meta» := clearMetaReferences db.meta id }

end Database

end Keepass
