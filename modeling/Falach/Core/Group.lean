import Falach.Core.Crud
/-!
# Group operations of an unlocked vault

`create_group`, `rename_group`, `move_group` and `delete_group`. What a call returns stands beside the database it
leaves, for a refused call has not always left it alone.
-/

namespace Falach

open Keepass Database

/-- The result of a vault call, and the database after it. -/
abbrev CallOutcome := Except VaultError Unit × Database

/-- `map_move_group_error`. -/
def mapMoveGroupError : MoveGroupError → VaultError
  | .cannotMoveRoot => .cannotModifyRoot
  | .notFound groupId => .groupNotFound groupId
  | .wouldCreateCycle => .invalidGroupTarget "cannot move a group into itself or one of its descendants"

/-- `GroupTrack::move_to`, with its error as the vault reports it. -/
def trackedMoveGroupTo (db : Database) (id newParent : GroupId) (now : NaiveDateTime) : Except Fault CallOutcome := do
  match ← db.moveGroupTo id newParent with
  | .error e => return (.error (mapMoveGroupError e), db)
  | .ok db => return (.ok (), db.modifyGroup id fun g =>
      { g with times := { g.times with locationChanged := some now } })

namespace Vault

/-- `Vault::create_group`; the group gets the UUID `fresh`. -/
def createGroup (db : Database) (parent : Uuid) (name : String) (fresh : GroupId) (now : Nat → NaiveDateTime) :
    CallOutcome :=
  match findGroupId db parent with
  | .error e => (.error e, db)
  | .ok parentId =>
    let group : Group :=
      { id := fresh
        parent := some parentId
        name := name
        times := { Times.new (now 0) with creation := some (now 1), lastModification := some (now 2) } }
    (.ok (), addGroup db parentId fresh group)

/-- `Vault::rename_group`. -/
def renameGroup (db : Database) (uuid : Uuid) (newName : String) (now : NaiveDateTime) : CallOutcome :=
  match findGroupId db uuid with
  | .error e => (.error e, db)
  | .ok groupId =>
    (.ok (), db.modifyGroup groupId fun g =>
      { g with name := newName, times := { g.times with lastModification := some now } })

/-- `Vault::move_group`. -/
def moveGroup (db : Database) (uuid newParent : Uuid) (now : NaiveDateTime) : Except Fault CallOutcome :=
  match findGroupId db uuid, findGroupId db newParent with
  | .error e, _ => return (.error e, db)
  | _, .error e => return (.error e, db)
  | .ok groupId, .ok newParentId =>
    if groupId = db.root then return (.error .cannotModifyRoot, db)
    else if recycleBin db = some newParentId then
      return (.error (.invalidGroupTarget "cannot move a group directly into the recycle bin"), db)
    else trackedMoveGroupTo db groupId newParentId now

inductive GroupDeleteBehavior where
  | refuse
  | recurse
deriving DecidableEq

/-- The group moved into the bin, unless it is the bin: both behaviors end so. -/
def binGroup (db : Database) (groupId fresh : GroupId) (now : Nat → NaiveDateTime) : Except Fault CallOutcome :=
  let (db, bin) := recycleBinGroupIdOrCreate db fresh now
  if groupId = bin then return (.ok (), db) else trackedMoveGroupTo db groupId bin (now 4)

/-- `Vault::delete_group`. -/
def deleteGroup (db : Database) (uuid : Uuid) (behavior : GroupDeleteBehavior) (fresh : GroupId)
    (now : Nat → NaiveDateTime) : Except Fault CallOutcome :=
  match findGroupId db uuid with
  | .error e => return (.error e, db)
  | .ok groupId =>
    if uuid = db.root then return (.error .cannotModifyRoot, db)
    else match behavior with
      | .refuse =>
        match db.group groupId with
        | none => return (.error (.groupNotFound uuid), db)
        | some group =>
          if group.groups ≠ ∅ ∨ group.entries ≠ ∅ then return (.error (.groupNotEmpty uuid), db)
          else binGroup db groupId fresh now
      | .recurse => binGroup db groupId fresh now

end Vault

end Falach
