import Falach.Lib.Programs
import Falach.Sync.Reconcile
import Falach.Sync.Transport
/-!
# `run_state_machine`

One sync run, as a program over the vault, its file and the transport. The calls that reach any of them are
requests, so other devices may act between any two of them, and each may fail.
-/

namespace Falach

open Keepass

/-- The calls a run makes. The errors of a transport have already been mapped into `SyncError`. -/
inductive Op where
  | head
  | fetchIfChanged (prevVersion : Option ObjectVersion)
  | putConditional (bytes : Bytes) (ifMatch : Option ObjectVersion)
  | readVaultBytes
  | snapshotPreMerge
  | database
  | reconcile (remote : Database)
  | replaceDatabase (newDb : Database)
  | save

@[reducible] def Answer : Op → Type
  | .head => Except SyncError (Option ObjectVersion)
  | .fetchIfChanged _ => Except SyncError (Option ObjectSnapshot)
  | .putConditional _ _ => Except SyncError ObjectVersion
  | .readVaultBytes => Except SyncError Bytes
  | .snapshotPreMerge => Except SyncError String
  | .database => Database
  | .reconcile _ => Except MergeError EntryDelta
  | .replaceDatabase _ => Except SyncError Unit
  | .save => Except SyncError Unit

structure SyncPointers where
  remoteEtag : Option String := none
  localSha256 : Option String := none
deriving DecidableEq

inductive SyncOutcome where
  | alreadyInSync
  | pushed (isFirstSeed : Bool)
  | fastReplaced
  | merged (delta : EntryDelta) (attempts : Nat)
deriving DecidableEq

abbrev SyncRun (α : Type) := Program Op Answer SyncError α

namespace SyncRun

open Program

def head : SyncRun (Option ObjectVersion) := request Answer .head >>= ofExcept
def fetchIfChanged (prevVersion : Option ObjectVersion) : SyncRun (Option ObjectSnapshot) :=
  request Answer (.fetchIfChanged prevVersion) >>= ofExcept
def putConditional (bytes : Bytes) (ifMatch : Option ObjectVersion) : SyncRun ObjectVersion :=
  request Answer (.putConditional bytes ifMatch) >>= ofExcept
def readVaultBytes : SyncRun Bytes := request Answer .readVaultBytes >>= ofExcept
def snapshotPreMerge : SyncRun String := request Answer .snapshotPreMerge >>= ofExcept
def database : SyncRun Database := request Answer .database
def replaceDatabase (newDb : Database) : SyncRun Unit := request Answer (.replaceDatabase newDb) >>= ofExcept
def save : SyncRun Unit := request Answer .save >>= ofExcept

/-- `vault.database().config.kdf_config`. -/
def refuseOtherKdf (remoteDb : Database) : SyncRun Unit := do
  let db ← database
  if db.config.kdfConfig ≠ remoteDb.config.kdfConfig then fail .masterPasswordMismatch

variable (openFromBytes : Bytes → Except SyncError Database) (sha256 : Bytes → String)

/-- The branch (false, true): push only. -/
def pushOnly (prevRemote : Option ObjectVersion) (localBytes : Bytes) : SyncRun (SyncOutcome × SyncPointers) := do
  let newVersion ← putConditional localBytes prevRemote
  return (.pushed prevRemote.isNone, ⟨some newVersion.tag, some (sha256 localBytes)⟩)

/-- The branch (true, false): the fetched snapshot replaces the vault. -/
def fastReplace (prev : SyncPointers) (prevRemote : Option ObjectVersion) : SyncRun (SyncOutcome × SyncPointers) := do
  match ← fetchIfChanged prevRemote with
  | none => return (.alreadyInSync, prev)
  | some snapshot => do
    let remoteDb ← ofExcept (openFromBytes snapshot.bytes)
    refuseOtherKdf remoteDb
    let _ ← snapshotPreMerge
    replaceDatabase remoteDb
    save
    let newBytes ← readVaultBytes
    return (.fastReplaced, ⟨some snapshot.version.tag, some (sha256 newBytes)⟩)

/-- The loop of the branch (true, true); `left` rounds are left of `max`. -/
def mergeLoop (backupPath : String) (max : Nat) : Nat → SyncRun (SyncOutcome × SyncPointers)
  | 0 => fail (.conditionalPutExhausted max)
  | left + 1 => do
    let attempts := max - left
    match ← fetchIfChanged none with
    | none => fail (.remoteUnreachable "<transport>" "transport returned no snapshot during merge")
    | some snapshot => do
      let remoteDb ← ofExcept (openFromBytes snapshot.bytes)
      refuseOtherKdf remoteDb
      match ← request Answer (.reconcile remoteDb) with
      | .error reason => fail (.unresolvable reason backupPath)
      | .ok delta => do
        save
        let mergedBytes ← readVaultBytes
        match ← request Answer (.putConditional mergedBytes (some snapshot.version)) with
        | .ok newVersion =>
          return (.merged delta attempts, ⟨some newVersion.tag, some (sha256 mergedBytes)⟩)
        | .error e =>
          if !isPreconditionFailure e then fail e
          else if attempts ≥ max then fail (.conditionalPutExhausted max)
          else mergeLoop backupPath max left

/-- `run_state_machine`, for a vault whose key is already fixed in `openFromBytes`. The activity pinger is left out. -/
def runStateMachine (last : SyncPointers) (maxRetries : Nat) : SyncRun (SyncOutcome × SyncPointers) := do
  let prevRemote := last.remoteEtag.map ObjectVersion.mk
  let remoteNow ← head
  let localBytes ← readVaultBytes
  let remoteChanged := decide (remoteNow ≠ prevRemote)
  let localChanged := decide (some (sha256 localBytes) ≠ last.localSha256)
  match remoteChanged, localChanged with
  | false, false => return (.alreadyInSync, last)
  | false, true => pushOnly sha256 prevRemote localBytes
  | true, false => fastReplace openFromBytes sha256 last prevRemote
  | true, true => do
    let backupPath ← snapshotPreMerge
    mergeLoop openFromBytes sha256 backupPath (max maxRetries 1) (max maxRetries 1)

end SyncRun

end Falach
