import Falach.Tui.Panes
/-!
# Editing

The commands that change the unlocked vault: each changes it in memory and then saves it, once.
-/

namespace Falach.Tui

open Keepass Program

inductive PersistError where
  | readOnly
  | vault (e : VaultError)

/-- A call of the unlocked vault, with what it leaves. A panic ends the application. -/
def Vault.called (v : Vault) (call : VaultCall) : Ui (Except VaultError Unit × Vault) :=
  match call.run v.database with
  | .error fault => .fail (.fault fault)
  | .ok (r, db) => return (r, { v with database := db })

/-- `get_entry` of each. -/
def Vault.getEntries (v : Vault) (uuids : List Uuid) : Except VaultError Unit :=
  uuids.forM fun uuid => (findEntryId v.database uuid).map fun _ => ()

/-- `try_for_each` of a call, with what it leaves. -/
def Vault.calledEach (call : Uuid → Draw → VaultCall) (v : Vault) : List Uuid → Ui (Except VaultError Unit × Vault)
  | [] => return (.ok (), v)
  | uuid :: rest => do
    let draw ← request AppAnswer .draw
    match ← v.called (call uuid draw) with
    | (.error e, v) => return (.error e, v)
    | (.ok (), v) => v.calledEach call rest

/-- Calls of the view of an entry, one after the other: the fields and tags they leave. -/
def applyEdits (edits : List ViewEdit) (v : Version) : HashMap String (Value String) × List String :=
  let v := edits.foldl (fun v edit => match edit.apply v with
    | some (fields, tags) => { v with fields := fields, tags := tags }
    | none => v) v
  (v.fields, v.tags)

namespace EditValues

def otpField : String := "otp"

/-- What `apply_add` builds. -/
def draft {Form : Type} (fe : Frontend Form) (v : EditValues) : Except VaultError EntryDraft :=
  let base : EntryDraft := { title := v.title, notes := some v.notes, tags := v.tags, customFields := v.custom }
  match v.kind with
  | .credential => .ok { base with username := some v.username, url := some v.url, password := some v.password }
  | .secureNote => .ok base
  | .totp => do
    fe.fromOtpauthUri v.totpUri
    return { base with
      username := some v.username
      url := some v.url
      customFields := ⟨otpField, v.totpUri, true⟩ :: v.custom }

/-- What `apply_update` does to the view. -/
def edits (v : EditValues) : List ViewEdit :=
  .setTitle v.title ::
    (match v.kind with
      | .credential => [.setUsername v.username, .setPassword v.password, .setUrl v.url]
      | .totp => [.setUsername v.username, .setUrl v.url]
      | .secureNote => []) ++
    [.setNotes v.notes, .setTags v.tags] ++
    v.custom.map (fun f => .setCustomField f.name f.value f.protected) ++
    v.removedCustom.map .removeCustomField

end EditValues

namespace App

variable {Form : Type} (fe : Frontend Form) (app : App Form)

/-- The application with what a call left of the vault. -/
def withVault (v : Vault) : App Form := { app with vault := some v }

/-- `persist_vault`. -/
def persistVault : Ui (Except PersistError Unit) :=
  if app.readOnly then return .error .readOnly
  else
    match app.vault with
    | some v => do return (← request AppAnswer (.saveVault v)).mapError .vault
    | none => return .ok ()

/-- Save what a call changed, unless it failed. -/
def thenPersist (result : Except VaultError Unit) : Ui (Except PersistError Unit) :=
  match result with
  | .error e => return .error (.vault e)
  | .ok () => app.persistVault

/-! ## One entry -/

/-- The call of `perform_save`, with the entry it is about. -/
def applyForm (values : EditValues) (state : EditState Form) (v : Vault) : Ui (Except VaultError Uuid × Vault) := do
  let draw ← request AppAnswer .draw
  match state.target with
  | some uuid =>
    let (r, v) ← v.called (.updateEntry uuid (fun version => .ok (applyEdits values.edits version)) (draw.now 0))
    return (r.map fun _ => uuid, v)
  | none =>
    match values.draft fe with
    | .error e => return (.error e, v)
    | .ok draft =>
      let (r, v) ← v.called (.addEntry state.group draft draw.entry draw.now)
      return (r.map fun _ => draw.entry, v)

/-- `perform_save`: whether it succeeded, and the form, which knows the entry from then on. -/
def performSave (state : EditState Form) : Ui (Bool × EditState Form × App Form) :=
  match fe.snapshot state.form, app.vault with
  | some values, some v => do
    match ← applyForm fe values state v with
    | (.error _, v) => return (false, state, app.withVault v)
    | (.ok uuid, v) =>
      let app := app.withVault v
      let state := { state with target := some uuid }
      match ← app.persistVault with
      | .error _ => return (false, state, app)
      | .ok () =>
        let app := app.withView fun view =>
          { view with
            tree := (if state.isNew then view.tree.expand state.group else view.tree).select uuid
            recents := view.recents.bump uuid }
        return (true, state, ← app.persistUiState)
  | _, _ => return (false, state, app)

/-- What a deletion leaves of the view. -/
def forgotten (uuids : List Uuid) : App Form :=
  let app := app.withView fun view =>
    { view with
      recents := uuids.foldl Recents.remove view.recents
      tabs := uuids.foldl (fun tabs uuid => if tabs.isPinned uuid then tabs.togglePin uuid else tabs) view.tabs }
  if app.view.tree.selected.any fun uuid => uuids.contains uuid then
    app.withView fun view => { view with tree := view.tree.selectFirst ((app.rows fe).getD []) }
  else app

/-- `perform_delete`. -/
def performDelete (uuid : Uuid) : Ui (App Form) :=
  match app.vault with
  | none => return app
  | some v => do
    let draw ← request AppAnswer .draw
    let (deleted, v) ← v.called (.deleteEntry draw.env uuid draw.group draw.now)
    let app := app.withVault v
    match ← app.thenPersist deleted with
    | .error _ => return app
    | .ok () => (app.forgotten fe [uuid]).persistUiState

/-! ## The marked entries -/

/-- Clear the marks. -/
def unmarked : App Form := app.withView fun view => { view with marks := ∅, treeMode := .normal }

/-- `finish_bulk_op`. -/
def finishBulkOp (result : Except VaultError Unit) : Ui (App Form) := do
  match ← app.thenPersist result with
  | .error _ => return app
  | .ok () => app.unmarked.persistUiState

/-- A bulk operation: if `valid` holds of the vault, the call of each entry. -/
def bulk (valid : Vault → Except VaultError Unit) (call : Uuid → Draw → VaultCall) (uuids : List Uuid) :
    Ui (Except VaultError Unit × App Form) :=
  match app.vault with
  | none => return (.ok (), app)
  | some v =>
    match valid v with
    | .error e => return (.error e, app)
    | .ok () => do
      let (result, v) ← v.calledEach call uuids
      return (result, app.withVault v)

/-- `apply_move_to_group`. -/
def applyMoveToGroup (target : Uuid) : Ui (App Form) := do
  let uuids := app.markedUuids
  let (result, app) ← app.bulk
    (fun v => do
      let _ ← findGroupId v.database target
      v.getEntries uuids)
    (fun uuid draw => .moveEntry uuid target (draw.now 0)) uuids
  app.finishBulkOp result

/-- `Tag::from`. -/
def tagFrom (value : String) : Except VaultError String :=
  if value.contains ';' then .error (.other ("invalid tag: " ++ value ++ "; tags cannot contain ';'")) else .ok value

/-- `apply_tag`. -/
def applyTag (action : TagAction) (tag : String) : Ui (App Form) :=
  match tagFrom tag with
  | .error e => app.finishBulkOp (.error e)
  | .ok tag => do
    let uuids := app.markedUuids
    let edit : ViewEdit := match action with
      | .add => .addTag tag
      | .remove => .removeTag tag
    let (result, app) ← app.bulk (fun v => v.getEntries uuids)
      (fun uuid draw => .updateEntry uuid (fun version => .ok (applyEdits [edit] version)) (draw.now 0)) uuids
    app.finishBulkOp result

/-- `perform_bulk_delete`. -/
def performBulkDelete (uuids : List Uuid) : Ui (App Form) := do
  let (result, app) ← app.bulk (fun v => v.getEntries uuids)
    (fun uuid draw => .deleteEntry draw.env uuid draw.group draw.now) uuids
  match ← app.thenPersist result with
  | .error _ => return app
  | .ok () => (app.unmarked.forgotten fe uuids).persistUiState

/-! ## Their overlays -/

/-- `open_add`. -/
def openAdd : App Form :=
  app.withOverlay (.edit { isNew := true, target := none, group := app.addTargetGroup fe, form := fe.newForm })

/-- `open_edit`. -/
def openEdit : App Form :=
  match app.selectedEntryUuid with
  | none => app
  | some uuid =>
    match app.entry uuid with
    | none => app
    | some e => app.withOverlay (.edit { isNew := false, target := some uuid, group := 0, form := fe.formOf e })

/-- `open_delete_confirm`. -/
def openDeleteConfirm : App Form :=
  if app.view.marks ≠ ∅ then app.withOverlay (.confirmBulkDelete app.markedUuids)
  else
    match app.selectedEntryUuid with
    | none => app
    | some uuid => app.withOverlay (.confirmDelete uuid)

/-- `open_group_picker`. -/
def openGroupPicker : App Form :=
  if app.readOnly ∨ app.view.marks = ∅ then app
  else app.withOverlay (.groupPicker
    { groups := (app.vault.map fun v => fe.groupChoices v.database).getD [], count := app.view.marks.card })

/-- `open_tag_input`. -/
def openTagInput (action : TagAction) : App Form :=
  if app.readOnly ∨ app.view.marks = ∅ then app
  else app.withOverlay (.tagInput { action := action, count := app.view.marks.card })

/-- `on_edit_key`; the panel that generates a password takes every key. -/
def onEditKey (state : EditState Form) (key : Key) : Ui (Handled Form) :=
  let typed : Handled Form := (some (.edit { state with form := fe.typed state.form key }), app)
  if fe.generating state.form then return typed
  else if key.code = .esc then return (none, app)
  else if key.control ∧ key.code = .char 's' then do
    match ← app.performSave fe state with
    | (true, _, app) => return (none, app)
    | (false, state, app) => return (some (.edit state), app)
  else return typed

/-- `on_confirm_delete_key` and `on_confirm_bulk_delete_key`, which differ in what `y` does. -/
def onConfirmKey (overlay : Overlay Form) (confirmed : Ui (App Form)) (key : Key) : Ui (Handled Form) :=
  match key.code with
  | .char 'y' | .char 'Y' => do return (none, ← confirmed)
  | .char 'n' | .char 'N' | .esc => return (none, app)
  | _ => return (some overlay, app)

def onConfirmDeleteKey (uuid : Uuid) (key : Key) : Ui (Handled Form) :=
  app.onConfirmKey (.confirmDelete uuid) (app.performDelete fe uuid) key

def onConfirmBulkDeleteKey (uuids : List Uuid) (key : Key) : Ui (Handled Form) :=
  app.onConfirmKey (.confirmBulkDelete uuids) (app.performBulkDelete fe uuids) key

/-- `on_group_picker_key`. -/
def onGroupPickerKey (state : GroupPickerState) (key : Key) : Ui (Handled Form) :=
  match key.code with
  | .esc => return (none, app)
  | .down | .char 'j' =>
    return (some (.groupPicker { state with selected := selectNext state.groups.length state.selected }), app)
  | .up | .char 'k' => return (some (.groupPicker { state with selected := selectPrev state.selected }), app)
  | .enter => app.chosen app.applyMoveToGroup state.groups[state.selected]?
  | _ => return (some (.groupPicker state), app)

/-- `feed_input`. -/
def feed (input : Input) (key : Key) : Input := (fe.handle input key).getD input

/-- `on_tag_input_key`. -/
def onTagInputKey (state : TagInputState) (key : Key) : Ui (Handled Form) :=
  match key.code with
  | .esc => return (none, app)
  | .enter =>
    let tag := Text.trim state.input.value
    if tag = [] then return (none, app) else do return (none, ← app.applyTag state.action (String.ofList tag))
  | _ => return (some (.tagInput { state with input := feed fe state.input key }), app)

end App

end Falach.Tui
