import Falach.Tui.App
import Mathlib.Data.Finset.Sort
/-!
# Panes

The tree, the detail pane, pins, history and search: commands that look at the vault and change only what is shown,
what is remembered of it in `tui.toml`, and the clipboard.
-/

namespace Falach.Tui

open Keepass Program

namespace App

variable {Form : Type} (fe : Frontend Form) (app : App Form)

/-- The application with another view. -/
def withView (f : View → View) : App Form := { app with view := f app.view }

def withOverlay (overlay : Overlay Form) : App Form := { app with overlay := some overlay }

/-! ## Looking at the vault -/

/-- `build_rows`, if a vault is unlocked. -/
def rows : Option (List TreeRow) := app.vault.map fun v => fe.buildRows v.database app.view.tree app.view.recents

def entry (uuid : Uuid) : Option Entry := app.vault.bind fun v => v.database.entry uuid

def hasGroup (uuid : Uuid) : Bool := app.vault.any fun v => (v.database.group uuid).isSome

/-- `selected_entry_uuid`. -/
def selectedEntryUuid : Option Uuid := app.view.tree.selected.filter fun uuid => (app.entry uuid).isSome

/-- `current_tree_group`. -/
def currentTreeGroup : Option Uuid := do
  let v ← app.vault
  let selected ← app.view.tree.selected
  if (v.database.group selected).isSome then some selected
  else
    let path ← fe.nodePath v.database selected
    if 2 ≤ path.length then path[path.length - 2]? else none

/-- `add_target_group`. -/
def addTargetGroup : Uuid :=
  match app.vault with
  | none => 0
  | some v =>
    match app.view.tree.selected with
    | none => v.database.root
    | some selected =>
      if (v.database.group selected).isSome then selected
      else
        let rows := fe.buildRows v.database app.view.tree app.view.recents
        let parent : Option TreeRow := do
          let i ← rows.findIdx? fun r => r.uuid = selected
          let row ← rows[i]?
          (rows.take i).reverse.find? fun above => above.depth < row.depth
        (parent.map (·.uuid)).getD v.database.root

/-- `marked_uuids`: in order. -/
def markedUuids : List Uuid := app.view.marks.sort (· ≤ ·)

/-! ## What is remembered -/

/-- `persist_ui_state`. -/
def persistUiState : Ui (App Form) :=
  match app.selectedVault, app.vault with
  | some name, some _ => do
    let uiConfig := app.uiConfig.insert name ⟨app.view.tabs.pinned, app.view.recents.order⟩
    let _ ← request AppAnswer (.saveUiConfig uiConfig)
    return { app with uiConfig := uiConfig }
  | _, _ => return app

/-- `update_user_config`, and whether it succeeded. -/
def updateUserConfig (update : UserConfig → UserConfig) : Ui (Bool × App Form) := do
  match ← request AppAnswer (.updateUserConfig update) with
  | some latest => return (true, { app with userConfig := latest })
  | none => return (false, app)

/-! ## The tree and the detail pane -/

/-- `expand_ancestors`. -/
def expandAncestors (uuid : Uuid) : App Form :=
  match app.vault.bind fun v => fe.nodePath v.database uuid with
  | some path => app.withView fun view => { view with tree := path.dropLast.foldl TreeState.expand view.tree }
  | none => app

/-- `jump_to_entry`. -/
def jumpToEntry (uuid : Uuid) : Ui (App Form) :=
  ((app.expandAncestors fe uuid).withView fun view =>
    { view with
      jumpHistory := view.jumpHistory.push uuid
      tabs := view.tabs.jumpTo 1
      tree := view.tree.select uuid
      focus := .detail
      revealPassword := false
      detailScroll := 0
      recents := view.recents.bump uuid }).persistUiState

/-- `enter_detail`. -/
def enterDetail (uuid : Uuid) : Ui (App Form) :=
  (app.withView fun view =>
    { view with
      jumpHistory := view.jumpHistory.push uuid
      focus := .detail
      recents := view.recents.bump uuid }).persistUiState

/-- `jump_to_history`. -/
def jumpToHistory (uuid : Uuid) : Ui (App Form) :=
  if app.vault.isNone then return app
  else
    let shown := (app.expandAncestors fe uuid).withView fun view =>
      { view with
        tabs := view.tabs.jumpTo 1
        tree := view.tree.select uuid
        revealPassword := false
        detailScroll := 0 }
    if app.hasGroup uuid then return shown.withView fun view => { view with focus := .tree }
    else (shown.withView fun view => { view with focus := .detail, recents := view.recents.bump uuid }).persistUiState

/-- `current_jump_uuid`. -/
def currentJumpUuid : Option Uuid :=
  match app.view.tabs.activeTab with
  | .pinned uuid => some uuid
  | .secrets | .settings => app.view.tree.selected

/-- `jump_back` and `jump_forward`, which differ in the walk. -/
def jump (walk : JumpHistory → Uuid → Option Uuid × JumpHistory) : Ui (App Form) :=
  match app.currentJumpUuid with
  | none => return app
  | some current =>
    let (target, jumpHistory) := walk app.view.jumpHistory current
    let walked := app.withView fun view => { view with jumpHistory := jumpHistory }
    match target with
    | some target => walked.jumpToHistory fe target
    | none => return walked

def jumpBack : Ui (App Form) := app.jump fe JumpHistory.goBack
def jumpForward : Ui (App Form) := app.jump fe JumpHistory.goForward

/-- `tree_command`. -/
def treeCommand (cmd : Command) : Ui (App Form) :=
  match app.rows fe with
  | none => return app
  | some rows =>
    let moved (move : Bool × TreeState) : App Form := app.withView fun view =>
      if move.1 then { view with tree := move.2, revealPassword := false, detailScroll := 0 }
      else { view with tree := move.2 }
    let entered : Ui (App Form) :=
      match app.view.tree.selected with
      | some uuid => app.enterDetail uuid
      | none => return app
    match cmd with
    | .next => return moved (app.view.tree.moveNext rows)
    | .prev => return moved (app.view.tree.movePrev rows)
    | .parent => return moved (app.view.tree.collapseOrParent rows)
    | .child =>
      if app.view.tree.selectedIsEntry rows then entered else return moved (app.view.tree.expandOrChild rows)
    | .confirm =>
      if app.view.tree.selectedIsEntry rows then entered
      else return app.withView fun view => { view with tree := view.tree.toggleExpand rows }
    | _ => return app

/-- `max_scroll_for`. -/
def maxScrollFor (uuid : Uuid) : Nat :=
  (app.vault.bind fun v => fe.detailLines v.database uuid app.view.revealPassword).getD 0

/-- `max_detail_scroll`. -/
def maxDetailScroll : Nat := (app.view.tree.selected.map (app.maxScrollFor fe)).getD 0

/-- `detail_command`. -/
def detailCommand (cmd : Command) : App Form :=
  app.withView fun view =>
    match cmd with
    | .next => { view with detailScroll := min (view.detailScroll + 1) (app.maxDetailScroll fe) }
    | .prev => { view with detailScroll := view.detailScroll - 1 }
    | .parent | .cancel => { view with focus := .tree }
    | _ => view

/-- `pinned_command`. -/
def pinnedCommand (uuid : Uuid) (cmd : Command) : App Form :=
  app.withView fun view =>
    match cmd with
    | .next => { view with detailScroll := min (view.detailScroll + 1) (app.maxScrollFor fe uuid) }
    | .prev => { view with detailScroll := view.detailScroll - 1 }
    | _ => view

/-- `toggle_focus`. -/
def toggleFocus : App Form :=
  app.withView fun view => { view with focus := if view.focus = .tree then .detail else .tree }

/-- `cycle_sort`. -/
def cycleSort : App Form := app.withView fun view => { view with tree := view.tree.cycleSort }

/-- `exec_reveal`. -/
def execReveal : App Form :=
  let pinned : Bool := match app.view.tabs.activeTab with
    | .pinned _ => true
    | _ => false
  if pinned ∨ app.selectedEntryUuid.isSome then
    app.withView fun view => { view with revealPassword := !view.revealPassword }
  else app

/-- `on_tab_switched`. -/
def onTabSwitched : Ui (App Form) :=
  let app := app.withView fun view => { view with revealPassword := false, detailScroll := 0 }
  match app.view.tabs.activeTab with
  | .pinned uuid => (app.withView fun view =>
      { view with jumpHistory := view.jumpHistory.push uuid, recents := view.recents.bump uuid }).persistUiState
  | _ => return app

/-- `apply_tab_motion`. -/
def applyTabMotion (cmd : Command) (count : Option Nat) : Ui (App Form) :=
  match cmd with
  | .nextTab => (app.withView fun view => { view with tabs := view.tabs.next }).onTabSwitched
  | .prevTab => (app.withView fun view => { view with tabs := view.tabs.prev }).onTabSwitched
  | .jumpToTab => (app.withView fun view => { view with tabs := view.tabs.jumpTo (count.getD 0) }).onTabSwitched
  | _ => return app

/-- `toggle_pin_selected`. -/
def togglePinSelected : Ui (App Form) :=
  match app.selectedEntryUuid with
  | some uuid => (app.withView fun view => { view with tabs := view.tabs.togglePin uuid }).persistUiState
  | none => return app

/-! ## Marks -/

/-- `recompute_visual_marks`. -/
def recomputeVisualMarks : App Form :=
  match app.view.treeMode, app.rows fe with
  | .visual anchor, some rows =>
    let cursor := (app.view.tree.selectedIndex rows).getD anchor
    let (lo, hi) := (min anchor cursor, max anchor cursor)
    let span := if hi < rows.length then (rows.take (hi + 1)).drop lo else []
    app.withView fun view => { view with marks := ((span.filter fun r => !r.isGroup).map (·.uuid)).toFinset }
  | _, _ => app

/-- `enter_visual_mode`. -/
def enterVisualMode : App Form :=
  match app.rows fe with
  | none => app
  | some rows => (app.withView fun view =>
      { view with treeMode := .visual ((view.tree.selectedIndex rows).getD 0) }).recomputeVisualMarks fe

/-- `toggle_current_mark`. -/
def toggleCurrentMark : App Form :=
  match app.selectedEntryUuid with
  | none => app
  | some uuid => app.withView fun view =>
      { view with marks := if uuid ∈ view.marks then view.marks.erase uuid else insert uuid view.marks }

/-- `handle_visual_key`; `none` if the key is not one of its own. -/
def handleVisualKey (key : Key) : Option (Ui (App Form)) :=
  if fe.isBound .next key then some do return (← app.treeCommand fe .next).recomputeVisualMarks fe
  else if fe.isBound .prev key then some do return (← app.treeCommand fe .prev).recomputeVisualMarks fe
  else if key.code = .char ' ' then some (return app.toggleCurrentMark)
  else if key.code = .esc then some (return app.withView fun view => { view with treeMode := .normal })
  else none

/-! ## Copying -/

inductive CopyField where
  | password
  | username

def fieldText (e : Entry) (name : String) : String := ((e.fields.lookup name).map Value.get).getD ""

/-- `copy_field_of`. -/
def copyFieldOf (uuid : Uuid) (field : CopyField) : Ui (App Form) :=
  match app.entry uuid with
  | none => return app
  | some e => do
    let text := match field with
      | .password => fieldText e passwordField
      | .username => fieldText e usernameField
    if text = "" then return app
    else if ← request AppAnswer (.copy text) then
      (app.withView fun view => { view with recents := view.recents.bump uuid }).persistUiState
    else return app

/-- `do_copy`. -/
def doCopy (field : CopyField) : Ui (App Form) :=
  match app.selectedEntryUuid with
  | none => return app
  | some uuid => app.copyFieldOf uuid field

/-! ## History and search -/

/-- `open_history_for`. -/
def openHistoryFor (uuid : Uuid) : App Form :=
  match app.entry uuid with
  | none => app
  | some e => app.withOverlay (.history { snapshots := (versions e).reverse })

/-- `exec_history`. -/
def execHistory : App Form :=
  match app.view.tabs.activeTab with
  | .pinned uuid => app.openHistoryFor uuid
  | _ =>
    match app.selectedEntryUuid with
    | none => app
    | some uuid => app.openHistoryFor uuid

/-- `SearchState::set_results`. -/
def setResults (state : SearchState) (results : List Uuid) : SearchState :=
  if results = [] then { state with results := [], selected := 0, scroll := 0 }
  else
    let selected := min state.selected (results.length - 1)
    { state with results := results, selected := selected, scroll := min state.scroll selected }

/-- `run_search`. -/
def runSearch (state : SearchState) : SearchState :=
  setResults state <| match app.vault with
    | none => []
    | some v => fe.search v.database state.input.value state.scope app.view.recents.order

def firstTag (uuid : Uuid) : Option String := (app.entry uuid).bind fun e => e.tags.head?

/-- `open_search`. -/
def openSearch : App Form :=
  let saved : SavedView := ⟨app.view.tree.selected, app.view.focus, app.view.detailScroll⟩
  let scope := match app.userConfig.searchDefaultScope with
    | "group" => ((app.currentTreeGroup fe).map .groupSubtree).getD .all
    | "tag" => ((app.selectedEntryUuid.bind app.firstTag).map .tag).getD .all
    | _ => .all
  app.withOverlay (.search (app.runSearch fe { scope := scope, saved := saved }))

/-- `next_search_scope`. -/
def nextSearchScope (state : SearchState) : SearchScope :=
  let tagScope := (((state.results[state.selected]?).bind app.firstTag).map .tag).getD .all
  match state.scope with
  | .all =>
    match app.currentTreeGroup fe with
    | some group => .groupSubtree group
    | none => tagScope
  | .groupSubtree _ => tagScope
  | .tag _ => .all

/-- `restore_saved_view`. -/
def restoreSavedView (saved : SavedView) : App Form :=
  app.withView fun view =>
    { view with
      tree := saved.selected.elim view.tree view.tree.select
      focus := saved.focus
      detailScroll := saved.detailScroll }

/-- `search_primary_action`. -/
def searchPrimaryAction (uuid : Uuid) : Ui (App Form) :=
  match app.userConfig.enterAction with
  | .copy => app.copyFieldOf uuid .password
  | .«open» => app.jumpToEntry fe uuid

/-- `search_secondary_action`. -/
def searchSecondaryAction (uuid : Uuid) : Ui (App Form) :=
  match app.userConfig.enterAction with
  | .copy => app.jumpToEntry fe uuid
  | .«open» => app.copyFieldOf uuid .password

/-- `select_next` and `select_prev` of a list. -/
def selectNext (length selected : Nat) : Nat := if length = 0 then selected else min (selected + 1) (length - 1)
def selectPrev (selected : Nat) : Nat := selected - 1

/-- What a key leaves of the overlay it was meant for, and of the application. -/
abbrev Handled (Form : Type) := Option (Overlay Form) × App Form

def chosen (act : Uuid → Ui (App Form)) : Option Uuid → Ui (Handled Form)
  | some uuid => do return (none, ← act uuid)
  | none => return (none, app)

/-- `on_search_key`. -/
def onSearchKey (state : SearchState) (key : Key) : Ui (Handled Form) :=
  if fe.isBound .cancel key then return (none, app.restoreSavedView state.saved)
  else if fe.isBound .cycleScope key then
    return (some (.search (app.runSearch fe { state with scope := app.nextSearchScope fe state })), app)
  else if fe.isBound .openEntry key then app.chosen (app.searchSecondaryAction fe) state.results[state.selected]?
  else if fe.isBound .quickSelect key then
    match (digitValue key).bind fun n => if n = 0 then none else state.results[state.scroll + n - 1]? with
    | some uuid => app.chosen (app.searchPrimaryAction fe) (some uuid)
    | none => return (some (.search state), app)
  else if key.code = .enter then app.chosen (app.searchPrimaryAction fe) state.results[state.selected]?
  else if key.code = .down ∨ (key.code = .char 'n' ∧ key.control) then
    return (some (.search { state with selected := selectNext state.results.length state.selected }), app)
  else if key.code = .up ∨ (key.code = .char 'p' ∧ key.control) then
    return (some (.search { state with selected := selectPrev state.selected }), app)
  else
    match fe.handle state.input key with
    | some input => return (some (.search (app.runSearch fe { state with input := input })), app)
    | none => return (some (.search state), app)

/-- `on_history_key`. -/
def onHistoryKey (state : HistoryState) (key : Key) : Handled Form :=
  match key.code with
  | .esc => (none, app)
  | .down | .char 'j' => (some (.history
      { state with selected := selectNext state.snapshots.length state.selected }), app)
  | .up | .char 'k' => (some (.history { state with selected := selectPrev state.selected }), app)
  | _ => (some (.history state), app)

end App

end Falach.Tui
