import Mathlib.Data.Set.Insert
import Falach.Sync.Machine
/-!
# `sync_now_with_transport`

A sync run between the registry that remembers what was synced last and the object that others may replace at any
time.
-/

namespace Falach

open Keepass

/-! ## The registry -/

inductive IfMatchSupport where
  | unknown
  | supported
  | degraded
deriving DecidableEq

/-- `SyncConfig`: the pointers, and of the target what a run may learn about it. -/
structure SyncConfig where
  ifMatchSupported : IfMatchSupport := .unknown
  lastSyncedRemoteEtag : Option String := none
  lastSyncedLocalSha256 : Option String := none
deriving DecidableEq

def SyncConfig.pointers (cfg : SyncConfig) : SyncPointers := ⟨cfg.lastSyncedRemoteEtag, cfg.lastSyncedLocalSha256⟩

/-- The `[sync]` blocks of a `VaultRegistry`, in memory and in its file. -/
structure Registry where
  vaults : HashMap String SyncConfig
  stored : HashMap String SyncConfig

/-- How the write of the registry file goes: when it fails, the file may have been replaced or not. -/
inductive Write where
  | done
  | unconfirmed (e : VaultError)
  | failed (e : VaultError)

namespace Registry

/-- `update_registry_sync_block`. -/
def updateSyncBlock (registry : Registry) (vaultName : String) (cfg : SyncConfig) : Except SyncError Registry :=
  if vaultName ∈ registry.vaults then .ok { registry with vaults := registry.vaults.insert vaultName cfg }
  else .error (.vault (.notRegistered vaultName))

/-- `VaultRegistry::save`. -/
def save (registry : Registry) : Write → Except SyncError Unit × Registry
  | .done => (.ok (), { registry with stored := registry.vaults })
  | .unconfirmed e => (.error (.vault e), { registry with stored := registry.vaults })
  | .failed e => (.error (.vault e), registry)

end Registry

/-- The body of `sync_now_with_transport` after `run_state_machine` has returned `result`. -/
def syncNowWithTransport (registry : Registry) (vaultName : String) (cfg : SyncConfig)
    (updateCfgAfterRun : SyncConfig → SyncConfig) (write : Write)
    (result : Except SyncError (SyncOutcome × SyncPointers)) :
    Except SyncError SyncOutcome × Registry :=
  let cfg := updateCfgAfterRun cfg
  match result with
  | .ok (outcome, pointers) =>
    let cfg := { cfg with lastSyncedRemoteEtag := pointers.remoteEtag, lastSyncedLocalSha256 := pointers.localSha256 }
    match registry.updateSyncBlock vaultName cfg with
    | .error e => (.error e, registry)
    | .ok registry => ((registry.save write).1.map fun _ => outcome, (registry.save write).2)
  | .error err =>
    match registry.updateSyncBlock vaultName cfg with
    | .error _ => (.error err, registry)
    | .ok registry => (.error err, (registry.save write).2)

/-! ## A client -/

/-- A vault that is synced with one object. `uploaded`, `fetched` and `succeeded` are recorded for the proofs. -/
structure Client where
  machine : Machine
  registry : Registry
  vaultName : String
  /-- The configuration that the call under way has read. -/
  cfg : SyncConfig
  object : Option ObjectSnapshot
  /-- What this client has uploaded, with the version that the transport reported for it. -/
  uploaded : Set (ObjectVersion × Bytes) := ∅
  fetched : Set ObjectSnapshot := ∅
  /-- The last thing that happened is a call that returned `Ok`. -/
  succeeded : Bool := false

namespace Client

/-- The requests that do not go to the transport. -/
def Local : Op → Prop
  | .head | .fetchIfChanged _ | .putConditional _ _ => False
  | _ => True

/-- What a request does. Others may have replaced the object before the transport answers; it reports one version of
one object in all its calls. -/
inductive Exec (encrypts : Database → Bytes → Prop) : Client → (op : Op) → Answer op → Client → Prop where
  | head {c} (object) : Exec encrypts c .head (.ok (object.map (·.version)))
      { c with machine := c.machine.ask .head, object := object, succeeded := false }
  | headFails {c} (object e) : Exec encrypts c .head (.error e)
      { c with machine := c.machine.ask .head, object := object, succeeded := false }
  | fetch {c prev} (s) : prev ≠ some s.version → Exec encrypts c (.fetchIfChanged prev) (.ok (some s))
      { c with
        machine := c.machine.ask (.fetchIfChanged prev), object := some s, fetched := insert s c.fetched
        succeeded := false }
  | notModified {c prev} (object) : prev = object.map (·.version) → Exec encrypts c (.fetchIfChanged prev) (.ok none)
      { c with machine := c.machine.ask (.fetchIfChanged prev), object := object, succeeded := false }
  | fetchFails {c prev} (object e) : Exec encrypts c (.fetchIfChanged prev) (.error e)
      { c with machine := c.machine.ask (.fetchIfChanged prev), object := object, succeeded := false }
  | put {c bytes ifMatch} (n) : Exec encrypts c (.putConditional bytes ifMatch) (.ok n)
      { c with
        machine := c.machine.ask (.putConditional bytes ifMatch), object := some ⟨n, bytes⟩
        uploaded := insert (n, bytes) c.uploaded, succeeded := false }
  | putFails {c bytes ifMatch} (object e) : Exec encrypts c (.putConditional bytes ifMatch) (.error e)
      { c with machine := c.machine.ask (.putConditional bytes ifMatch), object := object, succeeded := false }
  | «local» {c op a m} : Local op → Machine.Exec encrypts c.machine op a m →
      Exec encrypts c op a { c with machine := m, succeeded := false }

/-- What happens between two calls: the vault is edited, its file replaced, the object replaced by others, the
registry read again, the vault configured anew. -/
inductive Idle (c : Client) : Client → Prop where
  | edit (db : Database) : Idle c { c with machine := c.machine.hold db, succeeded := false }
  | rewrite (disk : HashMap String Bytes) :
      Idle c { c with machine := { c.machine with disk := disk }, succeeded := false }
  | replace (object : Option ObjectSnapshot) : Idle c { c with object := object, succeeded := false }
  | reload : Idle c { c with registry := { c.registry with vaults := c.registry.stored }, succeeded := false }
  | configure : Idle c { c with
      registry := { c.registry with vaults := c.registry.vaults.insert c.vaultName {} }, succeeded := false }

end Client

/-- Updates of the configuration after a run leave the pointers alone: what they record is the classification of the
transport. -/
def KeepsPointers (update : SyncConfig → SyncConfig) : Prop := ∀ cfg, (update cfg).pointers = cfg.pointers

/-- A client that syncs whenever it likes. -/
def client (encrypts : Database → Bytes → Prop) (openFromBytes : Bytes → Except SyncError Database)
    (sha256 : Bytes → String) : System Op Answer SyncError (SyncOutcome × SyncPointers) Unit Client where
  exec _ c op a _ c' := Client.Exec encrypts c op a c'
  begins c c' p := ∃ cfg maxRetries, c.registry.vaults.lookup c.vaultName = some cfg ∧
    c' = { c with machine := c.machine.begun, cfg := cfg, succeeded := false } ∧
    p = SyncRun.runStateMachine openFromBytes sha256 cfg.pointers maxRetries
  returns c a c' := ∃ update write, KeepsPointers update ∧
    let (result, registry) := syncNowWithTransport c.registry c.vaultName c.cfg update write (.ok a)
    c' = { c with registry := registry, succeeded := result.isOk }
  fails c e c' := ∃ update write, KeepsPointers update ∧
    let (result, registry) := syncNowWithTransport c.registry c.vaultName c.cfg update write (.error e)
    c' = { c with registry := registry, succeeded := result.isOk }
  idles := Client.Idle
  crashes c c' := ∃ db, c' = { c with
    machine := c.machine.hold db, registry := { c.registry with vaults := c.registry.stored }, succeeded := false }

end Falach
