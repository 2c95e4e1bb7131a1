import Falach.Tui.Leaving
/-!
# Dispatch

From an event of the terminal to the command it stands for: keys by the phase, the overlay and the tab they meet, the
palette and the mouse.
-/

namespace Falach.Tui

open Keepass Program

inductive MouseTarget where
  | treeRow (i : Nat)
  | detailPane
  | tab (index : Nat)
  | hintMore
  | searchRow (i : Nat)
  | paletteRow (i : Nat)
deriving DecidableEq

inductive MouseKind where
  | left
  | scrollDown
  | scrollUp
  | other
deriving DecidableEq

/-- A mouse event; `hit` is what the regions that the last render left have at its place. -/
structure MouseEvent where
  kind : MouseKind
  hit : Option MouseTarget

/-- What happens to the application. `viewport` is the height of the list of results, if it is drawn. -/
inductive Event where
  | tick (now : Instant)
  | render (viewport : Option Nat)
  | key (key : Key)
  | mouse (event : MouseEvent)
  | other

namespace App

variable {Form : Type} (fe : Frontend Form) (app : App Form)

/-! ## The palette -/

/-- `current_context`. -/
def currentContext : Context :=
  match app.overlay with
  | some (.search _) => .search
  | some (.edit _) => .edit
  | some (.history _) => .history
  | some (.confirmDelete _) | some (.confirmBulkDelete _) | some .confirmQuit | some (.groupPicker _)
  | some (.tagInput _) => .confirm
  | some (.syncUnlock _ _) => .syncUnlock
  | some (.syncConfig _) => .syncConfig
  | some (.palette _) => .palette
  | none =>
    match app.phase with
    | .unlockList => .unlockList
    | .unlockPrompt _ _ _ => .unlockPrompt
    | .lockScreen => .lockScreen
    | .workspace =>
      match app.view.tabs.activeTab with
      | .secrets => if app.view.focus = .tree then .secretsTree else .secretsDetail
      | .pinned _ => .pinnedTab
      | .settings => .settingsTab

def enabledIf (cond : Bool) : CmdState := if cond then .enabled else .disabled

/-- `command_state`. -/
def commandState (id : Command) : CmdState :=
  if app.isSyncing ∧ ¬ id.availableDuringSync then .disabled
  else if app.readOnly ∧ id ∈ Command.roMutatingCommands then .disabled
  else
    match id with
    | .copyPassword | .copyUsername | .editEntry | .pinToggle => enabledIf app.selectedEntryUuid.isSome
    | .deleteEntry => enabledIf (app.view.marks ≠ ∅ || app.selectedEntryUuid.isSome)
    | .moveToGroup | .addTag | .removeTag => enabledIf (app.view.marks ≠ ∅)
    | .revealPassword | .history =>
      enabledIf ((match app.view.tabs.activeTab with
        | .pinned _ => true
        | _ => false) || app.selectedEntryUuid.isSome)
    | .sync => enabledIf (app.syncConfigured fe)
    | _ => .enabled

/-- `build_palette_rows`: the commands listed and whether they can be run. -/
def paletteRows (state : PaletteState) : List (Command × CmdState) :=
  (fe.paletteOrder (Text.trim state.input.value)).map fun id =>
    (id, if state.underlying ∈ id.contexts then app.commandState fe id else .disabled)

/-- `open_palette`. -/
def openPalette : App Form :=
  let underlying := app.currentContext
  (app.withView fun view => { view with pendingSeq := {} }).withOverlay (.palette { underlying := underlying })

/-! ## Before a vault is unlocked -/

/-- `open_unlock_prompt_for`. -/
def openUnlockPromptFor (name : String) : App Form :=
  { app with selectedVault := some name, phase := .unlockPrompt name {} 0 }

/-- `unlock_list_nav`. -/
def unlockListNav (cmd : Command) : Ui (App Form) := do
  let registry ← app.expectRegistry
  let count := registry.vaults.length
  if count = 0 then return app
  else
    match cmd with
    | .next => return app.withView fun view => { view with listIndex := min (view.listIndex + 1) (count - 1) }
    | .prev => return app.withView fun view => { view with listIndex := view.listIndex - 1 }
    | .confirm =>
      match registry.vaults[app.view.listIndex]? with
      | some v => return app.openUnlockPromptFor v.name
      | none => return app
    | _ => return app

/-- `hydrate_workspace`, `reset_tab_motion` and `reset_secrets_view`. -/
def resetView : App Form :=
  let state := (app.selectedVault.bind fun name => app.uiConfig.lookup name).getD {}
  let pinned := state.pinned.filter fun uuid => (app.entry uuid).isSome
  let app := app.withView fun view =>
    { view with
      tabs := .withPins pinned
      recents := .fromPersisted state.recents
      pendingSeq := {}
      tree := { sort := app.userConfig.defaultSort }
      focus := .tree
      revealPassword := false
      detailScroll := 0 }
  app.withView fun view => { view with tree := view.tree.selectFirst ((app.rows fe).getD []) }

def maxUnlockAttempts : Nat := 3

/-- `try_unlock`. -/
def tryUnlock (vaultName : String) (input : PasswordInput) (attempts : Nat) : Ui (App Form) :=
  match app.registry.bind fun registry => registry.get vaultName with
  | none => return { app with phase := .unlockList }
  | some registered => do
    match ← request AppAnswer (.openVault registered.path input.buffer) with
    | .ok vault =>
      let now ← request AppAnswer .now
      let app ← App.armAutoLockForCurrentVault
        { app with phase := .unlockList, vault := some vault, selectedVault := some vaultName } now
      let app := { app.resetView fe with phase := .workspace }
      if app.userConfig.syncOnUnlock ∧ app.syncConfigured fe then app.startSync .onUnlock input.buffer else return app
    | .error .authenticationFailed =>
      if maxUnlockAttempts ≤ attempts + 1 then return { app with phase := .unlockList }
      else return { app with phase := .unlockPrompt vaultName {} (attempts + 1) }
    | .error _ => return { app with phase := .unlockList }

/-- `on_unlock_prompt_key`. -/
def onUnlockPromptKey (vaultName : String) (input : PasswordInput) (attempts : Nat) (key : Key) : Ui (App Form) :=
  match input.onKey key with
  | (.«continue», input) => return { app with phase := .unlockPrompt vaultName input attempts }
  | (.cancel, _) => return { app with phase := .unlockList }
  | (.submit, input) => app.tryUnlock fe vaultName input attempts

/-- `on_lock_screen_key`. -/
def onLockScreenKey : Ui (App Form) :=
  match app.selectedVault with
  | none => return { app with phase := .unlockList }
  | some name => do
    let registry ← app.expectRegistry
    let listIndex := (registry.vaults.findIdx? fun v => v.name = name).getD app.view.listIndex
    return { app.withView fun view => { view with listIndex := listIndex } with phase := .unlockList }

/-! ## Commands -/

/-- `exec_context_nav`. -/
def execContextNav (id : Command) : Ui (App Form) :=
  match app.phase with
  | .unlockList => app.unlockListNav id
  | .workspace =>
    match app.view.tabs.activeTab with
    | .secrets => if app.view.focus = .tree then app.treeCommand fe id else return app.detailCommand fe id
    | .pinned uuid => return app.pinnedCommand fe uuid id
    | .settings => app.settingsCommand fe id
  | .unlockPrompt _ _ _ | .lockScreen => return app

/-- The commands of `execute_command` that act on the vault or on the active tab. -/
def actCommand (id : Command) : Ui (App Form) :=
  match id with
  | .focusPane => return app.toggleFocus
  | .search => return app.openSearch fe
  | .addEntry => return app.openAdd fe
  | .editEntry => return app.openEdit fe
  | .deleteEntry => return app.openDeleteConfirm
  | .copyPassword => app.doCopy .password
  | .copyUsername => app.doCopy .username
  | .revealPassword => return app.execReveal
  | .history => return app.execHistory
  | .pinToggle => app.togglePinSelected
  | .sortCycle => return app.cycleSort
  | .sync => return app.requestSync fe
  | .next | .prev | .parent | .child | .confirm | .cancel => app.execContextNav fe id
  | .jumpBack => app.jumpBack fe
  | .jumpForward => app.jumpForward fe
  | .visualMode => return app.enterVisualMode fe
  | .moveToGroup => return app.openGroupPicker fe
  | .addTag => return app.openTagInput .add
  | .removeTag => return app.openTagInput .remove
  | .cycleScope | .quickSelect | .openEntry | .generate | .quit | .lockNow | .help | .nextTab | .prevTab
  | .jumpToTab => return app

/-- `execute_command`. -/
def executeCommand (id : Command) (count : Option Nat) : Ui (App Form) :=
  if app.readOnly ∧ id ∈ Command.roMutatingCommands then return app
  else
    match id with
    | .quit => return app.requestQuit fe
    | .lockNow => if app.phase = .workspace then return app.requestLock fe else return app
    | .help => return app.openPalette
    | .nextTab | .prevTab | .jumpToTab => app.applyTabMotion id count
    | _ => if ¬ id.availableDuringSync ∧ app.isSyncing then return app else app.actCommand fe id

/-- `nav_command_for`. -/
def navCommandFor (key : Key) : Option Command :=
  [.next, .prev, .parent, .child, .confirm, .cancel].find? fun cmd => fe.isBound cmd key

/-- The navigation command the key stands for, if any. -/
def onNavKey (key : Key) : Ui (App Form) :=
  match navCommandFor fe key with
  | some cmd => app.executeCommand fe cmd none
  | none => return app

/-- `on_pinned_key`. -/
def onPinnedKey (key : Key) : Ui (App Form) :=
  match [.jumpBack, .revealPassword, .history].find? fun cmd => fe.isBound cmd key with
  | some cmd => app.executeCommand fe cmd none
  | none => app.onNavKey fe key

/-- The commands that `on_secrets_key` looks for, in order. -/
def secretsCommands : List Command :=
  [.revealPassword, .sortCycle, .pinToggle, .search, .addEntry, .editEntry, .deleteEntry, .history, .copyPassword,
    .copyUsername, .sync, .visualMode, .moveToGroup, .addTag, .removeTag]

/-- `on_secrets_key`, after visual mode has left the key. -/
def onNormalSecretsKey (key : Key) : Ui (App Form) :=
  if app.view.treeMode = .normal ∧ app.view.marks ≠ ∅ ∧ key.code = .esc then
    return app.withView fun view => { view with marks := ∅ }
  else if app.view.focus = .tree ∧ key.code = .char ' ' then return app.toggleCurrentMark
  else if fe.isBound .focusPane key then app.executeCommand fe .focusPane none
  else if fe.isBound .jumpBack key then app.executeCommand fe .jumpBack none
  else if app.view.focus = .tree ∧ fe.isBound .jumpForward key then app.executeCommand fe .jumpForward none
  else
    match secretsCommands.find? fun cmd => fe.isBound cmd key with
    | some cmd => app.executeCommand fe cmd none
    | none => app.onNavKey fe key

/-- `on_secrets_key`. -/
def onSecretsKey (key : Key) : Ui (App Form) :=
  match if app.view.treeMode = .normal then none else app.handleVisualKey fe key with
  | some handled => handled
  | none => app.onNormalSecretsKey fe key

/-- `on_workspace_key`, with `dispatch_active_tab_key`. -/
def onWorkspaceKey (key : Key) : Ui (App Form) :=
  let (resolution, pendingSeq) := fe.resolve key app.view.pendingSeq
  let app := app.withView fun view => { view with pendingSeq := pendingSeq }
  match resolution with
  | .command cmd count => app.executeCommand fe cmd count
  | .pending => return app
  | .none =>
    match app.view.tabs.activeTab with
    | .secrets => app.onSecretsKey fe key
    | .settings => app.onNavKey fe key
    | .pinned _ => app.onPinnedKey fe key

/-! ## Overlays -/

/-- `on_palette_key`. -/
def onPaletteKey (state : PaletteState) (key : Key) : Ui (Handled Form) :=
  let rows := app.paletteRows fe state
  let up : Handled Form := (some (.palette { state with selected := selectPrev state.selected }), app)
  let down : Handled Form := (some (.palette { state with selected := selectNext rows.length state.selected }), app)
  match key.code with
  | .esc => return (none, app)
  | .enter =>
    match rows[state.selected]? with
    | some (id, .enabled) => do return (none, ← app.executeCommand fe id none)
    | _ => return (some (.palette state), app)
  | .up => return up
  | .down => return down
  | _ =>
    if key.control ∧ key.code = .char 'p' then return up
    else if key.control ∧ key.code = .char 'n' then return down
    else
      match fe.handle state.input key with
      | some input => return (some (.palette { state with input := input, selected := 0 }), app)
      | none => return (some (.palette state), app)

/-- The handler of the overlay. -/
def onOverlay (key : Key) : Overlay Form → Ui (Handled Form)
  | .search state => app.onSearchKey fe state key
  | .edit state => app.onEditKey fe state key
  | .history state => return app.onHistoryKey state key
  | .confirmDelete uuid => app.onConfirmDeleteKey fe uuid key
  | .confirmBulkDelete uuids => app.onConfirmBulkDeleteKey fe uuids key
  | .confirmQuit => app.onConfirmQuitKey fe key
  | .groupPicker state => app.onGroupPickerKey state key
  | .tagInput state => app.onTagInputKey fe state key
  | .syncUnlock input pending => app.onSyncUnlockKey input pending key
  | .syncConfig state => app.onSyncConfigKey fe state key
  | .palette state => app.onPaletteKey fe state key

/-- `on_overlay_key`: the overlay is taken out, and put back if it is kept. -/
def onOverlayKey (overlay : Overlay Form) (key : Key) : Ui (App Form) := do
  let (kept, app) ← App.onOverlay fe { app with overlay := none } key overlay
  return match kept with
    | some overlay => app.withOverlay overlay
    | none => app

/-! ## Events -/

/-- The key handler of the phase. -/
def onPhaseKey (key : Key) : Ui (App Form) :=
  match app.phase with
  | .unlockList => app.onNavKey fe key
  | .unlockPrompt vaultName input attempts => app.onUnlockPromptKey fe vaultName input attempts key
  | .lockScreen => app.onLockScreenKey
  | .workspace => app.onWorkspaceKey fe key

/-- The phase is the one in which `?` is a character of the password. -/
def Phase.isPrompt : Phase → Bool
  | .unlockPrompt _ _ _ => true
  | _ => false

/-- `handle_event`, for a key. -/
def handleKey (key : Key) : Ui (App Form) :=
  if ¬ key.press then return app
  else if fe.isBound .quit key then app.executeCommand fe .quit none
  else if fe.isBound .lockNow key ∧ app.phase = .workspace then app.executeCommand fe .lockNow none
  else
    match app.overlay with
    | some overlay => app.onOverlayKey fe overlay key
    | none =>
      if fe.isBound .help key ∧ ¬ Phase.isPrompt app.phase then app.executeCommand fe .help none
      else app.onPhaseKey fe key

/-- `mouse_target_at`, after the regions were searched. -/
def mouseTarget (hit : Option MouseTarget) : Option MouseTarget :=
  if app.phase ≠ .workspace then none
  else if app.overlay.isNone then hit
  else
    match hit with
    | some (.searchRow _) | some (.paletteRow _) => hit
    | _ => none

/-- `mouse_select_tree_row`. -/
def mouseSelectTreeRow (i : Nat) : App Form :=
  match (app.rows fe).bind fun rows => rows[i]? with
  | some row => app.withView fun view =>
    { view with tree := view.tree.select row.uuid, focus := .tree, revealPassword := false, detailScroll := 0 }
  | none => app

/-- `apply_mouse_target`. -/
def applyMouseTarget (target : MouseTarget) : Ui (App Form) :=
  match target with
  | .tab index => (app.withView fun view => { view with tabs := view.tabs.jumpTo (index + 1) }).onTabSwitched
  | .hintMore => app.executeCommand fe .help none
  | .detailPane => return app.withView fun view => { view with focus := .detail }
  | .treeRow i => return app.mouseSelectTreeRow fe i
  | .searchRow i =>
    match app.overlay with
    | some (.search state) =>
      if i < state.results.length then return app.withOverlay (.search { state with selected := i }) else return app
    | _ => return app
  | .paletteRow i =>
    match app.overlay with
    | some (.palette state) => return app.withOverlay (.palette { state with selected := i })
    | _ => return app

/-- Three steps of a selection. -/
def thrice (f : Nat → Nat) (n : Nat) : Nat := f (f (f n))

/-- `mouse_scroll`; the wheel goes down or up. -/
def mouseScroll (hit : Option MouseTarget) (down : Bool) : Ui (App Form) :=
  let step (length : Nat) : Nat → Nat := thrice (if down then selectNext length else selectPrev)
  let direction : Command := if down then .next else .prev
  match app.mouseTarget hit with
  | some (.searchRow _) =>
    match app.overlay with
    | some (.search state) =>
      return app.withOverlay (.search { state with selected := step state.results.length state.selected })
    | _ => return app
  | some (.paletteRow _) =>
    match app.overlay with
    | some (.palette state) =>
      return app.withOverlay (.palette { state with selected := step (app.paletteRows fe state).length state.selected })
    | _ => return app
  | target => do
    let app := match target with
      | some .detailPane => app.withView fun view => { view with focus := .detail }
      | some (.treeRow _) => app.withView fun view => { view with focus := .tree }
      | _ => app
    let app ← app.execContextNav fe direction
    let app ← app.execContextNav fe direction
    app.execContextNav fe direction

/-- `handle_mouse_event`. -/
def handleMouse (event : MouseEvent) : Ui (App Form) :=
  if ¬ app.mouseEnabled then return app
  else
    match event.kind with
    | .left =>
      match app.mouseTarget event.hit with
      | some target => app.applyMouseTarget fe target
      | none => return app
    | .scrollDown => app.mouseScroll fe event.hit true
    | .scrollUp => app.mouseScroll fe event.hit false
    | .other => return app

/-- `SearchState::ensure_selected_visible`. -/
def ensureSelectedVisible (state : SearchState) (viewport : Nat) : SearchState :=
  { state with
    scroll :=
      if state.selected < state.scroll then state.selected
      else if 0 < viewport ∧ state.scroll + viewport ≤ state.selected then state.selected + 1 - viewport
      else state.scroll }

/-- What is drawn from the registry: the list of vaults, and the timeout in the settings. -/
def drawRegistry : Ui Unit :=
  match app.phase with
  | .unlockList => do
    let _ ← app.expectRegistry
    return ()
  | .workspace =>
    if ¬ app.isSyncing ∧ app.view.tabs.activeTab = .settings then do
      let _ ← app.currentAutoLockSeconds
      return ()
    else return ()
  | .unlockPrompt _ _ _ | .lockScreen => return ()

/-- `render`, as far as it asks for the registry or changes anything. -/
def render (viewport : Option Nat) : Ui (App Form) := do
  app.drawRegistry
  return match app.overlay, viewport with
    | some (.search state), some viewport => app.withOverlay (.search (ensureSelectedVisible state viewport))
    | _, _ => app

/-- One round of the event loop, for whatever it has to do. -/
def on : Event → Ui (App Form)
  | .tick now => app.tick fe now
  | .render viewport => app.render viewport
  | .key key => do
    let now ← request AppAnswer .now
    let app := if key.press then { app with controller := app.controller.registerActivity now } else app
    app.handleKey fe key
  | .mouse event => do
    let now ← request AppAnswer .now
    App.handleMouse fe { app with controller := app.controller.registerActivity now } event
  | .other => return app

end App

end Falach.Tui
