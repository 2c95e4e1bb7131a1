import Falach.Tui.Dispatch
import Mathlib.Logic.Relation
/-!
# Sessions

The application in its surroundings: the files, the remote objects and the workers. An event is handled to its end
before the next one; between any two events the workers take any of their steps.
-/

namespace Falach.Tui

open Keepass Program

/-! ## Start-up -/

inductive TuiError where
  | noVaultsRegistered
  | security (e : SecurityError)
  | unknownVault (name : String)

/-- What `App::new` has read when it builds the application: the files, and the arguments resolved over them. -/
structure Launch where
  registry : Registry
  uiConfig : TuiConfig
  userConfig : UserConfig
  activeThemeIsLight : Bool
  mouseEnabled : Bool
  readOnly : Bool
  vault : Option String

namespace App

variable {Form : Type}

/-- `App::from_registry`. -/
def fromRegistry (registry : Registry) (uiConfig : TuiConfig) (lockConfig : AutoLockConfig) :
    Except TuiError (App Form) :=
  if registry.vaults = [] then .error .noVaultsRegistered
  else
    match AutoLockController.new lockConfig with
    | .error e => .error (.security e)
    | .ok controller => .ok { registry := some registry, uiConfig := uiConfig, controller := controller }

/-- `App::apply_args`. -/
def applyArgs (app : App Form) (launch : Launch) : Except TuiError (App Form) :=
  let app := { app with
    userConfig := launch.userConfig
    activeThemeIsLight := launch.activeThemeIsLight
    mouseEnabled := launch.mouseEnabled
    readOnly := launch.readOnly }
  match launch.vault with
  | none => .ok app
  | some name => if (launch.registry.get name).isNone then .error (.unknownVault name)
      else .ok (app.openUnlockPromptFor name)

/-- `App::new`. -/
def new (launch : Launch) : Except TuiError (App Form) := do
  (← fromRegistry launch.registry launch.uiConfig .default).applyArgs launch

end App

/-! ## Surroundings -/

/-- A worker syncs, or its thread has ended. -/
inductive Job where
  | syncing (vault : Vault) (registry : Registry)
  | returned
  | panicked

/-- A worker and its channel. `drained` is recorded for the proofs: what `SyncRuntime::drain` has made of it. -/
structure Worker where
  job : Job
  trigger : SyncTrigger
  queue : List SyncMsg := []
  drained : List SyncMsg := []

namespace Worker

/-- The senders of the channel are gone. -/
def disconnected (w : Worker) : Bool :=
  match w.job with
  | .syncing _ _ => false
  | .returned | .panicked => true

def received (w : Worker) : Received := ⟨w.queue, w.disconnected⟩

/-- The channel after it was drained. -/
def emptied (w : Worker) : Worker :=
  { w with queue := [], drained := w.drained ++ (App.drained w.disconnected w.queue).1 }

end Worker

/-- `opened` is recorded for the proofs: the vault that was opened last, as it was then. -/
structure Host where
  vaultFiles : HashMap String Bytes
  vaultsToml : Option String
  remote : HashMap String Bytes
  workers : List Worker := []
  opened : Option Vault := none

namespace Host

/-- A call that replaces a file whole may fail before or after it did so. -/
def replaces {α : Type} (h : Host) (result : Except VaultError α) (replaced h' : Host) : Prop :=
  h' = replaced ∨ (∃ e, result = .error e) ∧ h' = h

/-- How a request of a registry call is answered. -/
def RegistryExec (h : Host) : (op : RegistryOp) → RegistryAnswer op → Host → Prop
  | .readToString, contents, h' => h' = h ∧ ∀ c, contents = .ok c → c = h.vaultsToml
  | .writeAtomic body, result, h' => h.replaces result { h with vaultsToml := some body } h'
  | .ensureExists, _, h' => h' = h
  | .acquireExclusive, _, h' => h' = h
  | .unlock, _, h' => h' = h

/-- How a request of the application is answered. -/
def Exec (h : Host) : (op : AppOp) → AppAnswer op → Host → Prop
  | .openVault path _, result, h' =>
    match result with
    | .ok vault => vault.path = path ∧ path ∈ h.vaultFiles ∧ h' = { h with opened := some vault }
    | .error _ => h' = h
  | .saveVault vault, result, h' =>
    ∃ bytes, h.replaces result { h with vaultFiles := h.vaultFiles.insert vault.path bytes } h'
  | .registry op, answer, h' => h.RegistryExec op answer h'
  | .spawn vault registry _ _ trigger, channel, h' =>
    channel = h.workers.length ∧ h' =
      { h with workers := h.workers ++ [{ job := .syncing vault registry, trigger := trigger }] }
  | .receive channel, received, h' => ∃ w, h.workers[channel]? = some w ∧ received = w.received ∧
      h' = { h with workers := h.workers.set channel w.emptied }
  | .now, _, h' => h' = h
  | .draw, _, h' => h' = h
  | .updateUserConfig _, _, h' => h' = h
  | .saveUiConfig _, _, h' => h' = h
  | .copy _, _, h' => h' = h

/-- The surroundings with a worker replaced. -/
def withWorker (h : Host) (i : Nat) (w : Worker) : Host := { h with workers := h.workers.set i w }

/-- A step of a worker: it works on its vault and its registry, reports activity, returns with any outcome, or panics.
-/
inductive Work (h : Host) : Host → Prop where
  | sync {i : Nat} {w : Worker} {v v' : Vault} {r r' : Registry} {files remote : HashMap String Bytes}
      {vaultsToml : Option String} : h.workers[i]? = some w → w.job = .syncing v r → v'.path = v.path →
      Work h (({ h with vaultFiles := files, vaultsToml := vaultsToml, remote := remote } : Host).withWorker i
        { w with job := .syncing v' r' })
  | activity {i : Nat} {w : Worker} {v : Vault} {r : Registry} : h.workers[i]? = some w → w.job = .syncing v r →
      Work h (h.withWorker i { w with queue := w.queue ++ [.activity] })
  | done {i : Nat} {w : Worker} {v : Vault} {r : Registry} (outcome : Except SyncError SyncOutcome) :
      h.workers[i]? = some w → w.job = .syncing v r →
      Work h (h.withWorker i { w with job := .returned, queue := w.queue ++ [.done ⟨v, r, outcome, w.trigger⟩] })
  | panic {i : Nat} {w : Worker} {v : Vault} {r : Registry} : h.workers[i]? = some w → w.job = .syncing v r →
      Work h (h.withWorker i { w with job := .panicked })

end Host

/-! ## Sessions -/

structure Session (Form : Type) where
  host : Host
  app : App Form

namespace Session

variable {Form : Type} (fe : Frontend Form)

/-- How an event is handled: in which surroundings it ends, and how. -/
def Handles (s : Session Form) (event : Event) (host : Host) (ending : Ending Panic (App Form)) : Prop :=
  Runs Host.Exec (fun _ _ => False) s.host (s.app.on fe event) host ending

/-- An event that the application survives, or a step of a worker. -/
inductive Step (s : Session Form) : Session Form → Prop where
  | event {event : Event} {host : Host} {app : App Form} : s.Handles fe event host (.returned app) → Step s ⟨host, app⟩
  | work {host : Host} : s.host.Work host → Step s ⟨host, s.app⟩

/-- The application as it starts, with no workers yet. -/
structure Starts (s : Session Form) : Prop where
  app : ∃ launch, App.new launch = .ok s.app
  workers : s.host.workers = []
  opened : s.host.opened = none

/-- The states some run from `s` reaches. -/
abbrev Reaches : Session Form → Session Form → Prop := Relation.ReflTransGen (Step fe)

end Session

end Falach.Tui
