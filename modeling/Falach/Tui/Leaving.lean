import Falach.Tui.Editing
/-!
# Syncing, locking and settings

How the vault leaves the application: to a worker that syncs it, or for good when it is locked. The settings, of which
two change the registry.
-/

namespace Falach.Tui

open Keepass Program

namespace App

variable {Form : Type} (fe : Frontend Form) (app : App Form)

def isSyncing : Bool := app.inflight.isSome

/-- `App::registry`. -/
def expectRegistry : Ui Registry :=
  match app.registry with
  | some registry => return registry
  | none => .fail .registryAway

/-- A call of the registry, on the files of the application. -/
def registryCall {α : Type} (call : RegistryRun α) : Ui (Except VaultError α) := call.lift .registry fun _ a => a

/-! ## Auto-lock -/

/-- The number of seconds set for a vault. -/
def storedSeconds (registry : Registry) (name : String) : Option Nat :=
  (registry.get name).bind fun v => VaultLockConfig.idleTimeoutSecondsFromExtra v.extra

/-- The override of a vault, if it is valid. -/
def overrideOf (registry : Registry) (name : String) : Option AutoLockConfig :=
  (storedSeconds registry name).bind fun secs =>
    let cfg : AutoLockConfig := ⟨fromSecs secs⟩
    match cfg.validate with
    | .ok () => some cfg
    | .error _ => none

/-- `current_auto_lock_seconds`. -/
def currentAutoLockSeconds : Ui Nat :=
  match app.selectedVault with
  | none => return AutoLockConfig.defaultIdleTimeoutSecs
  | some name => do
    let registry ← app.expectRegistry
    return (storedSeconds registry name).getD AutoLockConfig.defaultIdleTimeoutSecs

/-- `vault_auto_lock_override`. -/
def vaultAutoLockOverride : Ui (Option AutoLockConfig) :=
  match app.selectedVault with
  | none => return none
  | some name => do
    let registry ← app.expectRegistry
    return overrideOf registry name

/-- The controller for an override: a new one, or without an override the one in force, armed again. -/
def armed (controller : AutoLockController) (now : Instant) : Option AutoLockConfig → AutoLockController
  | some cfg =>
    match AutoLockController.new cfg with
    | .ok controller => controller.unlock now
    | .error _ => controller.unlock now
  | none => controller.unlock now

/-- `arm_auto_lock_for_current_vault`. -/
def armAutoLockForCurrentVault (now : Instant) : Ui (App Form) := do
  let cfg ← app.vaultAutoLockOverride
  return { app with controller := armed app.controller now cfg }

/-- `set_auto_lock`. -/
def setAutoLock (seconds : Nat) : Ui (App Form) :=
  match app.selectedVault with
  | none => return app
  | some name => do
    let _ ← app.expectRegistry
    match ← registryCall (VaultRegistry.updateRegisteredExtra fe.toml name
        (VaultLockConfig.applyIdleTimeout (some seconds))) with
    | .error _ => return app
    | .ok registry =>
      let now ← request AppAnswer .now
      App.armAutoLockForCurrentVault { app with registry := some registry } now

def autoLockCycleSecs : List Nat := [60, 300, 600, 900, 1800]

/-- `cycle_auto_lock`. -/
def cycleAutoLock : Ui (App Form) := do
  let current ← app.currentAutoLockSeconds
  let index := match autoLockCycleSecs.findIdx? fun s => s = current with
    | some i => (i + 1) % autoLockCycleSecs.length
    | none => 0
  app.setAutoLock fe (autoLockCycleSecs.getD index 60)

/-! ## Locking and syncing -/

/-- `lock_app`. -/
def lockApp : App Form :=
  { app with
    vault := none
    overlay := none
    view := { app.view with jumpHistory := {}, treeMode := .normal, marks := ∅ }
    phase := .lockScreen }

/-- `selected_sync_config`. -/
def selectedSyncConfig : Option (SyncBlock TomlValue) := do
  let name ← app.selectedVault
  let registry ← app.registry
  let entry ← registry.get name
  SyncBlock.fromVaultEntry fe.codec entry

def syncConfigured : Bool := (app.selectedSyncConfig fe).isSome

/-- `should_sync_on_leave`. -/
def shouldSyncOnLeave : Bool :=
  !app.readOnly && app.userConfig.syncOnLockQuit && app.vault.isSome && app.syncConfigured fe

/-- `request_sync`. -/
def requestSync : App Form :=
  if app.isSyncing ∨ ¬ app.syncConfigured fe then app else app.withOverlay (.syncUnlock {} .manual)

/-- `request_lock`. -/
def requestLock : App Form :=
  if app.isSyncing then { app with lockPending := true }
  else if app.shouldSyncOnLeave fe then app.withOverlay (.syncUnlock {} .onLock)
  else app.lockApp

/-- `do_quit`. -/
def doQuit : App Form :=
  if app.phase = .workspace ∧ ¬ app.isSyncing ∧ app.shouldSyncOnLeave fe then app.withOverlay (.syncUnlock {} .onQuit)
  else { app with shouldQuit := true }

/-- `request_quit`. -/
def requestQuit : App Form := if app.userConfig.confirmQuit then app.withOverlay .confirmQuit else app.doQuit fe

/-- `start_sync`. -/
def startSync (trigger : SyncTrigger) (password : Text) : Ui (App Form) :=
  if app.readOnly then return app
  else
    match app.selectedVault, app.vault, app.registry with
    | some name, some vault, some registry => do
      let channel ← request AppAnswer (.spawn vault registry name password trigger)
      return { app with vault := none, registry := none, inflight := some channel }
    | _, _, _ => return app

/-- `cancel_pending_sync`. -/
def cancelPendingSync : SyncTrigger → App Form
  | .onLock => app.lockApp
  | .onQuit => { app with shouldQuit := true }
  | .manual | .onUnlock => app

/-- `on_sync_unlock_key`. -/
def onSyncUnlockKey (input : PasswordInput) (pending : SyncTrigger) (key : Key) : Ui (Handled Form) :=
  match input.onKey key with
  | (.«continue», input) => return (some (.syncUnlock input pending), app)
  | (.cancel, _) => return (none, app.cancelPendingSync pending)
  | (.submit, input) => do return (none, ← app.startSync pending input.buffer)

/-- `on_confirm_quit_key`. -/
def onConfirmQuitKey (key : Key) : Ui (Handled Form) :=
  app.onConfirmKey .confirmQuit (return app.doQuit fe) key

/-! ## Settings -/

def settingsRowCount : Nat := 6

/-- `cycle_theme`. -/
def cycleTheme : Ui (App Form) :=
  if fe.themeNames = [] then return app
  else do
    let light := app.activeThemeIsLight
    let current := if light then app.userConfig.themeLight else app.userConfig.themeDark
    let index := (fe.themeNames.findIdx? fun n => n = current).getD 0
    let next := fe.themeNames.getD ((index + 1) % fe.themeNames.length) current
    let (updated, app) ← app.updateUserConfig fun cfg =>
      if light then { cfg with themeLight := next } else { cfg with themeDark := next }
    if updated then return { app with activeThemeIsLight := fe.wantsLight app.userConfig } else return app

/-- `open_sync_config`. -/
def openSyncConfig : App Form := if app.vault.isNone then app else app.withOverlay (.syncConfig {})

/-- `activate_settings_row`. -/
def activateSettingsRow : Ui (App Form) :=
  match app.view.settingsIndex with
  | 0 => do return (← app.updateUserConfig fun cfg => { cfg with defaultSort := cfg.defaultSort.next }).2
  | 1 => app.cycleTheme fe
  | 2 => if app.readOnly then return app else app.cycleAutoLock fe
  | 3 => do
    let on := !app.userConfig.syncOnUnlock
    return (← app.updateUserConfig fun cfg => { cfg with syncOnUnlock := on }).2
  | 4 => do
    let on := !app.userConfig.syncOnLockQuit
    return (← app.updateUserConfig fun cfg => { cfg with syncOnLockQuit := on }).2
  | 5 => if app.readOnly then return app else return app.openSyncConfig
  | _ => return app

/-- `settings_command`. -/
def settingsCommand (cmd : Command) : Ui (App Form) :=
  match cmd with
  | .next => return app.withView fun view =>
      { view with settingsIndex := min (view.settingsIndex + 1) (settingsRowCount - 1) }
  | .prev => return app.withView fun view => { view with settingsIndex := view.settingsIndex - 1 }
  | .confirm => app.activateSettingsRow fe
  | _ => return app

/-- What the overlay says of the target, with the encrypted credential. -/
def configuredTarget (state : SyncConfigState) (container : String) : S3Config TomlValue where
  bucket := Text.trim state.bucket.value
  key := Text.trim state.key.value
  region := Text.trim state.region.value
  endpoint := if Text.trim state.endpoint.value = [] then none else some (Text.trim state.endpoint.value)
  pathStyle := state.pathStyle
  credentials := .rstCred1 (String.ofList (Text.trim state.accessKeyId.value)) container

/-- The fields that may not be empty. -/
def required (state : SyncConfigState) : List Text :=
  [Text.trim state.bucket.value, Text.trim state.key.value, Text.trim state.region.value,
    Text.trim state.accessKeyId.value, state.secret.buffer, state.master.buffer]

/-- `perform_configure_sync`, and whether it succeeded. -/
def performConfigureSync (state : SyncConfigState) : Ui (Bool × App Form) :=
  if [] ∈ required state then return (false, app)
  else
    match app.selectedVault, fe.encryptCredential (String.ofList state.secret.buffer) state.master.buffer,
      app.registry with
    | some name, some container, some registry => do
      match ← (configureRemoteRun fe.toml fe.codec registry name (configuredTarget state container)).lift
          AppOp.registry fun _ a => a with
      | .ok (.ok (), registry) => return (true, { app with registry := some registry })
      | .ok (.error _, registry) => return (false, { app with registry := some registry })
      | .error e => nomatch e
    | _, _, _ => return (false, app)

def syncFieldCount : Nat := 8

/-- A key typed into the focused field of the overlay. -/
def typedInto (state : SyncConfigState) (key : Key) : SyncConfigState :=
  match min state.focus (syncFieldCount - 1) with
  | 0 => { state with endpoint := feed fe state.endpoint key }
  | 1 => { state with region := feed fe state.region key }
  | 2 => { state with bucket := feed fe state.bucket key }
  | 3 => { state with key := feed fe state.key key }
  | 4 => if key.code = .char ' ' then { state with pathStyle := !state.pathStyle } else state
  | 5 => { state with accessKeyId := feed fe state.accessKeyId key }
  | 6 => { state with secret := (state.secret.onKey key).2 }
  | _ => { state with master := (state.master.onKey key).2 }

/-- `on_sync_config_key`. -/
def onSyncConfigKey (state : SyncConfigState) (key : Key) : Ui (Handled Form) :=
  if key.code = .esc then return (none, app)
  else if key.control ∧ key.code = .char 's' then do
    let (saved, app) ← app.performConfigureSync fe state
    return (if saved then none else some (.syncConfig state), app)
  else if key.code = .tab then
    return (some (.syncConfig { state with focus := (state.focus + 1) % syncFieldCount }), app)
  else if key.code = .backTab then
    return (some (.syncConfig { state with focus := (state.focus + syncFieldCount - 1) % syncFieldCount }), app)
  else return (some (.syncConfig (typedInto fe state key)), app)

/-! ## What comes back from a worker -/

/-- `SyncRuntime::drain`: the messages up to the last one, and whether there is a last one. -/
def drained (disconnected : Bool) : List SyncMsg → List SyncMsg × Bool
  | [] => if disconnected then ([.workerLost], true) else ([], false)
  | .done result :: _ => ([.done result], true)
  | msg :: rest => (msg :: (drained disconnected rest).1, (drained disconnected rest).2)

def drain : Ui (List SyncMsg × App Form) :=
  match app.inflight with
  | none => return ([], app)
  | some channel => do
    let received ← request AppAnswer (.receive channel)
    let (messages, finished) := drained received.disconnected received.messages
    return (messages, if finished then { app with inflight := none } else app)

/-- `reclamp_tree_selection`. -/
def reclampTreeSelection : App Form :=
  let app := app.withView fun view => { view with detailScroll := 0 }
  match app.rows fe with
  | none => app
  | some rows =>
    if app.view.tree.selected.any fun uuid => rows.any fun r => r.uuid = uuid then app
    else app.withView fun view => { view with tree := view.tree.selectFirst rows }

/-- The marks of entries that are still there. -/
def retainMarks : App Form :=
  let marks := app.view.marks.filter fun uuid => (app.entry uuid).isSome
  app.withView fun view =>
    { view with marks := marks, treeMode := if marks = ∅ then .normal else view.treeMode }

/-- `integrate_sync_result`. -/
def integrateSyncResult (result : SyncResult) : App Form :=
  let app := { app with registry := some result.registry }
  match result.outcome with
  | .ok _ =>
    let app := ((app.withVault result.vault).reclampTreeSelection fe).retainMarks
    if app.lockPending then App.lockApp { app with lockPending := false }
    else
      match result.trigger with
      | .onLock => app.lockApp
      | .onQuit => { app with shouldQuit := true }
      | .manual | .onUnlock => app
  | .error _ => App.lockApp { app with lockPending := false }

/-- `recover_from_lost_worker`. -/
def recoverFromLostWorker : Ui (App Form) := do
  let loaded ← registryCall (VaultRegistry.load fe.toml)
  let registry := match loaded with
    | .ok registry => registry
    | .error _ => .withPaths
  return App.lockApp { app with registry := some registry, lockPending := false }

/-- `on_sync_message`. -/
def onSyncMessage (now : Instant) (msg : SyncMsg) : Ui (App Form) :=
  match msg with
  | .activity => return { app with controller := app.controller.registerActivity now }
  | .done result => return app.integrateSyncResult fe result
  | .workerLost => app.recoverFromLostWorker fe

/-- The messages of one `drain`, in order. -/
def onSyncMessages (now : Instant) (app : App Form) : List SyncMsg → Ui (App Form)
  | [] => return app
  | msg :: rest => do (← app.onSyncMessage fe now msg).onSyncMessages now rest

/-- The idle clock of `tick`: an unlocked vault is locked, one that is being synced is to be locked. -/
def idle (now : Instant) : App Form :=
  let (state, controller) := app.controller.tick now
  if app.vault.isSome then
    if state = .locked then App.lockApp { app with controller := controller } else { app with controller := controller }
  else if app.isSyncing then
    { app with controller := controller, lockPending := app.lockPending || state = .locked }
  else app

/-- `tick`. -/
def tick (now : Instant) : Ui (App Form) := do
  let (messages, app) ← app.drain
  return (← app.onSyncMessages fe now messages).idle now

end App

end Falach.Tui
