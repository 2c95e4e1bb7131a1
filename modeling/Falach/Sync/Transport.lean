import Falach.Core.Error
import Falach.Keepass.Edit
import Falach.Lib.Text
/-!
# Transports

The types of the transport interface, its errors, and the in-memory transport of the tests.
-/

namespace Falach

open Keepass

/-- An opaque version identifier: the code only compares versions. -/
structure ObjectVersion where
  tag : String
deriving DecidableEq

structure ObjectSnapshot where
  version : ObjectVersion
  bytes : Bytes
deriving DecidableEq

/-! ## Errors -/

inductive S3Error where
  | notFound
  | authFailed
  | preconditionFailed
  | remoteUnreachable (reason : String)
  | conditionalPutNotSupported
  | concurrentWriteDetected
  | weakEtag
  | malformedEtag (reason : String)
  | signer (reason : String)
  | http (reason : String)
  | unexpected (status : Nat) (reason : String)
deriving DecidableEq

/-- `IsPreconditionFailed for S3Error`. -/
def S3Error.isPreconditionFailed : S3Error → Bool
  | .preconditionFailed | .concurrentWriteDetected => true
  | _ => false

/-- `SyncError`, as far as a sync run or `configure_remote` can return it. -/
inductive SyncError where
  | remoteUnreachable (endpoint : String) (source : String)
  | conditionalPutExhausted (attempts : Nat)
  | masterPasswordMismatch
  | unresolvable (reason : MergeError) (backupPath : String)
  | backupFailed (source : String)
  | s3 (e : S3Error)
  | vault (e : VaultError)
  | vaultIo (path : String) (source : String)
  | duplicateTarget (endpoint : Option Text) (bucket key : Text) (existingVault : String)
deriving DecidableEq

/-- `is_precondition_failure`. -/
def isPreconditionFailure : SyncError → Bool
  | .s3 e => e.isPreconditionFailed
  | _ => false

/-! ## The in-memory transport -/

inductive MemoryTransportError where
  | notFound
  | preconditionFailed
deriving DecidableEq

/-- `From<MemoryTransportError> for SyncError`. -/
def MemoryTransportError.toSyncError : MemoryTransportError → SyncError
  | .preconditionFailed => .s3 .preconditionFailed
  | .notFound => .remoteUnreachable "<memory-transport>" "MemoryTransport: object not found"

/-- `MemoryTransport`, without its injected panics. -/
structure MemoryTransport where
  state : Option (ObjectVersion × Bytes) := none
  counter : Nat := 0
  failHead : Bool := false

namespace MemoryTransport

/-- The version that `next_version` mints from the counter `n`. -/
def versionAt (n : Nat) : ObjectVersion := ⟨"memv-" ++ toString n⟩

def head (t : MemoryTransport) : Except MemoryTransportError (Option ObjectVersion) :=
  if t.failHead then .error .notFound else .ok (t.state.map (·.1))

def fetchIfChanged (t : MemoryTransport) (prevVersion : Option ObjectVersion) :
    Except MemoryTransportError (Option ObjectSnapshot) :=
  match t.state with
  | none => .error .notFound
  | some (current, bytes) => if prevVersion = some current then .ok none else .ok (some ⟨current, bytes⟩)

def putConditional (t : MemoryTransport) (bytes : Bytes) (ifMatch : Option ObjectVersion) :
    Except MemoryTransportError (ObjectVersion × MemoryTransport) :=
  let install := .ok (versionAt t.counter,
    { t with state := some (versionAt t.counter, bytes), counter := t.counter + 1 })
  match t.state, ifMatch with
  | none, some _ => .error .preconditionFailed
  | some (current, _), some prev => if current ≠ prev then .error .preconditionFailed else install
  | _, none => install

end MemoryTransport

end Falach
