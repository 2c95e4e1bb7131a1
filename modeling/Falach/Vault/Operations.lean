import Falach.Core.Group
import Falach.Sync.Saving
/-!
# The calls of a vault

Every call that changes an unlocked vault, in any order, successful or refused. What a call can do to the tree, to one
entry and to the tombstones is said once; the invariants of all runs follow from that.
-/

namespace Falach

open Keepass Database

/-- A call that refuses before it changes anything. -/
def leaves (db : Database) : Except VaultError Database → CallOutcome
  | .ok db' => (.ok (), db')
  | .error e => (.error e, db)

/-- `EntryTrack::move_to` and the end of the tracking, which records the version before the move also when the move was
refused. -/
def trackedMove (db : Database) (id : EntryId) (group : GroupId) (now : NaiveDateTime) : Except Fault CallOutcome := do
  let historical ← expect (db.entry id)
  match ← db.moveEntryTo id group with
  | none => return (.error (.groupNotFound group), db.modifyEntry id fun e => addHistory e historical.toVersion)
  | some db =>
    let db := db.modifyEntry id (relocatedAt now)
    return (.ok (), db.modifyEntry id fun e => addHistory e historical.toVersion)

namespace Vault

/-- `Vault::move_entry`, with the database it leaves. -/
def moveEntry (db : Database) (uuid newGroup : Uuid) (now : NaiveDateTime) : Except Fault CallOutcome :=
  match findEntryId db uuid, findGroupId db newGroup with
  | .error e, _ => return (.error e, db)
  | _, .error e => return (.error e, db)
  | .ok id, .ok group => trackedMove db id group now

/-- `Vault::delete_entry`, with the database it leaves. -/
def deleteEntry (env : Env) (db : Database) (uuid : Uuid) (fresh : GroupId) (now : Nat → NaiveDateTime) :
    Except Fault CallOutcome :=
  if db.meta.recyclebinEnabled.getD true = false then do return leaves db (← purgeEntry env db uuid (now 0))
  else match findEntryId db uuid with
    | .error e => return (.error e, db)
    | .ok id => do
      let (db, bin) := recycleBinGroupIdOrCreate db fresh now
      let e ← expect (db.entry id)
      if e.parent = bin then return (.ok (), db) else trackedMove db id bin (now 4)

/-- `Vault::set_max_history_per_entry`; an `isize` has 64 bits. -/
def setMaxHistoryPerEntry (db : Database) (n : Nat) : CallOutcome :=
  if n < 2 ^ 63 then (.ok (), { db with «meta» := { db.meta with historyMaxItems := some n } })
  else (.error (.invalidGroupTarget "history cap exceeds supported range"), db)

end Vault

/-- The calls of `Vault` that change its database. -/
inductive VaultCall where
  | addEntry (group : Uuid) (draft : EntryDraft) (fresh : EntryId) (now : Nat → NaiveDateTime)
  | editEntry (uuid : Uuid) (edit : ViewEdit) (now : NaiveDateTime)
  | updateEntry (uuid : Uuid) (f : Version → Except VaultError (HashMap String (Value String) × List String))
      (now : NaiveDateTime)
  | moveEntry (uuid newGroup : Uuid) (now : NaiveDateTime)
  | deleteEntry (env : Env) (uuid : Uuid) (fresh : GroupId) (now : Nat → NaiveDateTime)
  | purgeEntry (env : Env) (uuid : Uuid) (now : NaiveDateTime)
  | createGroup (parent : Uuid) (name : String) (fresh : GroupId) (now : Nat → NaiveDateTime)
  | renameGroup (uuid : Uuid) (newName : String) (now : NaiveDateTime)
  | moveGroup (uuid newParent : Uuid) (now : NaiveDateTime)
  | deleteGroup (uuid : Uuid) (behavior : Vault.GroupDeleteBehavior) (fresh : GroupId) (now : Nat → NaiveDateTime)
  | setExpiration (uuid : Uuid) (when now : NaiveDateTime)
  | clearExpiration (uuid : Uuid) (now : NaiveDateTime)
  | addAttachment (uuid : Uuid) (name : String) (bytes : Bytes) (now : NaiveDateTime)
  | removeAttachment (uuid : Uuid) (name : String) (now : NaiveDateTime)
  | setMaxAttachmentBytes (n : Nat)
  | setMaxHistoryPerEntry (n : Nat)

namespace VaultCall

def run (db : Database) : VaultCall → Except Fault CallOutcome
  | .addEntry group draft fresh now => return leaves db ((Falach.addEntry db group draft fresh now).map Prod.fst)
  | .editEntry uuid edit now => return leaves db (Falach.editEntry db uuid edit now)
  | .updateEntry uuid f now => return leaves db (Falach.updateEntry db uuid f now)
  | .moveEntry uuid newGroup now => Vault.moveEntry db uuid newGroup now
  | .deleteEntry env uuid fresh now => Vault.deleteEntry env db uuid fresh now
  | .purgeEntry env uuid now => do return leaves db (← Falach.purgeEntry env db uuid now)
  | .createGroup parent name fresh now => return Vault.createGroup db parent name fresh now
  | .renameGroup uuid newName now => return Vault.renameGroup db uuid newName now
  | .moveGroup uuid newParent now => Vault.moveGroup db uuid newParent now
  | .deleteGroup uuid behavior fresh now => Vault.deleteGroup db uuid behavior fresh now
  | .setExpiration uuid when now => return leaves db (Falach.setExpiration db uuid when now)
  | .clearExpiration uuid now => return leaves db (Falach.clearExpiration db uuid now)
  | .addAttachment uuid name bytes now => do return leaves db (← Vault.addAttachment db uuid name bytes now)
  | .removeAttachment uuid name now => do return leaves db (← Vault.removeAttachment db uuid name now)
  | .setMaxAttachmentBytes n => return leaves db (Falach.setMaxAttachmentBytes db n)
  | .setMaxHistoryPerEntry n => return Vault.setMaxHistoryPerEntry db n

/-- A UUID that is drawn at random is new. -/
def Sound (db : Database) : VaultCall → Prop
  | .addEntry _ _ fresh _ => fresh ∉ db.entries
  | .deleteEntry _ _ fresh _ | .createGroup _ _ fresh _ | .deleteGroup _ _ fresh _ => fresh ∉ db.groups
  | _ => True

/-- The call takes the entry out of the vault for good: a purge, or a deletion while the bin is off. -/
def Removes (db : Database) (id : EntryId) : VaultCall → Prop
  | .purgeEntry _ uuid _ => uuid = id
  | .deleteEntry _ uuid _ _ => uuid = id ∧ db.meta.recyclebinEnabled = some false
  | _ => False

/-- The call moves the entry, which tracks the move in its history. -/
def Relocates (db : Database) (id : EntryId) : VaultCall → Prop
  | .moveEntry uuid newGroup _ => uuid = id ∧ newGroup ∈ db.groups
  | .deleteEntry _ uuid _ _ => uuid = id ∧ db.meta.recyclebinEnabled.getD true = true ∧
      db.homeOf id ≠ recycleBin db
  | _ => False

/-- The call puts the current version of the entry into its history. -/
def Updates (id : EntryId) : VaultCall → Prop
  | .updateEntry uuid _ _ => uuid = id
  | _ => False

/-- The entry whose modification time the call sets, and the time. -/
def stamps : VaultCall → Option (EntryId × NaiveDateTime)
  | .editEntry uuid _ now | .updateEntry uuid _ now | .setExpiration uuid _ now | .clearExpiration uuid now
  | .addAttachment uuid _ _ now | .removeAttachment uuid _ now => some (uuid, now)
  | _ => none

end VaultCall

/-- What a call can make of an entry, as far as its history and its modification time go. -/
inductive Alters (db : Database) (call : VaultCall) (id : EntryId) : Option Entry → Option Entry → Prop where
  | absent : Alters db call id none none
  | kept {e e' : Entry} : versions e' = versions e → e'.time = e.time → Alters db call id (some e) (some e')
  | stamped {e e' : Entry} {now : NaiveDateTime} : call.stamps = some (id, now) → versions e' = versions e →
      e'.time = now → Alters db call id (some e) (some e')
  | recorded {e e' : Entry} {now : NaiveDateTime} : call.Updates id → call.stamps = some (id, now) →
      versions e' = versions (recordHistory (historyCap db) e) → e'.time = now → Alters db call id (some e) (some e')
  | relocated {e e' : Entry} : call.Relocates db id → versions e' = e.toVersion :: versions e → e'.time = e.time →
      Alters db call id (some e) (some e')
  | added {e' : Entry} : versions e' = [] → Alters db call id none (some e')
  | removed {e : Entry} : call.Removes db id → Alters db call id (some e) none

/-- What a call does to the database. -/
structure Effect (call : VaultCall) (db db' : Database) : Prop where
  linked : Linked db'
  entry : ∀ id, Alters db call id (db.entry id) (db'.entry id)
  tombstones : ∀ id ∈ db.deletedObjects, id ∈ db'.deletedObjects
  removed : ∀ id ∈ db.entries, id ∉ db'.entries → id ∈ db'.deletedObjects
  cap : (∀ n, call ≠ .setMaxHistoryPerEntry n) → historyCap db' = historyCap db

end Falach
