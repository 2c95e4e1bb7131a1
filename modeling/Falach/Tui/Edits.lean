import Falach.Tui.Effects
/-!
# What editing does

The vault changes in memory, or in its file, or in both, and nothing else does.
-/

namespace Falach.Tui

open Keepass Program

variable {Form : Type} {may : Prop}

/-! ## Editing -/

/-- The vault has changed in memory, or in its file, or in both. -/
structure Edited (host : Host) (app : App Form) (h : Host) (app' : App Form) : Prop where
  host : ∃ files, h = { host with vaultFiles := files } ∧
    ∀ path, app.vault.map (·.path) ≠ some path → files.lookup path = host.vaultFiles.lookup path
  core : ∃ vault, app'.core = { app.core with vault := vault } ∧ vault.map (·.path) = app.vault.map (·.path)
  writing : app'.writing = true → app.writing = true ∨ app.MayWrite

namespace Edited

variable {host h h' : Host} {app app' app'' : App Form}

theorem kept (hk : Kept app app') : Edited host app host app' :=
  ⟨⟨_, rfl, fun _ _ => rfl⟩, ⟨_, hk.core, rfl⟩, hk.writing⟩

theorem refl : Edited host app host app := kept .refl

theorem withVault {v v' : Vault} (hv : app.vault = some v) (hp : v'.path = v.path) :
    Edited host app host (app.withVault v') :=
  ⟨⟨_, rfl, fun _ _ => rfl⟩, ⟨some v', rfl, by rw [hv, Option.map_some, Option.map_some, hp]⟩, .inl⟩

theorem path (he : Edited host app h app') : app'.vault.map (·.path) = app.vault.map (·.path) := by
  obtain ⟨vault, hc, hp⟩ := he.core
  have hv : app'.vault = vault := congrArg Core.vault hc
  rw [hv, hp]

theorem mayWrite (he : Edited host app h app') : app'.MayWrite ↔ app.MayWrite := by
  obtain ⟨vault, hc, -⟩ := he.core
  have hro : app'.readOnly = app.readOnly := congrArg Core.readOnly hc
  have hin : app'.inflight = app.inflight := congrArg Core.inflight hc
  simp only [App.MayWrite, hro, hin]

theorem trans (he : Edited host app h app') (he' : Edited h app' h' app'') : Edited host app h' app'' := by
  obtain ⟨files, rfl, hfiles⟩ := he.host
  obtain ⟨files', rfl, hfiles'⟩ := he'.host
  obtain ⟨vault, hc, hv⟩ := he.core
  obtain ⟨vault', hc', hv'⟩ := he'.core
  refine ⟨⟨files', rfl, fun path hp => ?_⟩, ⟨vault', by rw [hc', hc], hv'.trans he.path⟩, fun hw => ?_⟩
  · exact (hfiles' path (he.path ▸ hp)).trans (hfiles path hp)
  · exact (he'.writing hw).elim he.writing fun hm => .inr (he.mayWrite.1 hm)

theorem does (he : Edited host app h app') (hro : app.readOnly = false) (hg : app.Guarded) : Does host app h app' := by
  obtain ⟨files, rfl, hfiles⟩ := he.host
  obtain ⟨vault, hc, hv⟩ := he.core
  refine ⟨?_, fun hw => he.mayWrite.2 ((he.writing hw).elim hg id)⟩
  rw [hc]
  exact .edited hro hv hfiles

end Edited

/-- After an edit, a part that keeps everything. -/
theorem Edited.steady {host h : Host} {app app' : App Form} {p : Ui (App Form)} (he : Edited host app h app')
    (hp : Steady may h app' p) : Ends may h (Edited host app) p :=
  Upholds.mono (fun _ _ hq => by obtain ⟨rfl, hk⟩ := hq; exact he.trans (.kept hk)) hp

theorem Vault.called_ends (hmay : may) (host : Host) (v : Vault) (call : VaultCall) :
    Ends may host (fun h r => h = host ∧ r.2.path = v.path) (v.called call) := by
  unfold Vault.called
  split
  · exact ⟨nofun, hmay⟩
  · exact Ends.returned ⟨rfl, rfl⟩

theorem Vault.calledEach_ends (hmay : may) (host : Host) (call : Uuid → Draw → VaultCall) (v : Vault)
    (uuids : List Uuid) :
    Ends may host (fun h r => h = host ∧ r.2.path = v.path) (v.calledEach call uuids) := by
  induction uuids generalizing v with
  | nil => exact Ends.returned ⟨rfl, rfl⟩
  | cons uuid rest ih =>
    refine Ends.ask fun draw h hask => ?_
    obtain rfl := hask
    refine Ends.bind (Vault.called_ends hmay h v _) fun h' r hr => ?_
    obtain ⟨rfl, hp⟩ := hr
    obtain ⟨result, v'⟩ := r
    cases result with
    | error e => exact Ends.returned ⟨rfl, hp⟩
    | ok _ => exact Upholds.mono (fun _ _ hq => ⟨hq.1, hq.2.trans hp⟩) (ih v')

namespace App

variable (fe : Frontend Form) (app : App Form) (host : Host)

theorem persistVault_edits : Ends may host (fun h _ => Edited host app h app) app.persistVault := by
  unfold persistVault
  refine Ends.ite (fun _ => Ends.returned .refl) fun _ => ?_
  split
  · rename_i v hv
    refine Ends.ask fun result h hask => ?_
    obtain ⟨bytes, rfl | ⟨-, rfl⟩⟩ := hask
    · refine Ends.returned ⟨⟨_, rfl, fun path hp => Finmap.lookup_insert_of_ne _ ?_⟩, ⟨_, rfl, rfl⟩, .inl⟩
      rintro rfl
      exact hp (by rw [hv]; rfl)
    · exact Ends.returned .refl
  · exact Ends.returned .refl

theorem thenPersist_edits (result : Except VaultError Unit) :
    Ends may host (fun h _ => Edited host app h app) (app.thenPersist result) := by
  cases result with
  | error e => exact Ends.returned .refl
  | ok _ => exact app.persistVault_edits host

theorem applyForm_ends (hmay : may) (values : EditValues) (state : EditState Form) (v : Vault) :
    Ends may host (fun h r => h = host ∧ r.2.path = v.path) (applyForm fe values state v) := by
  refine Ends.ask fun draw h hask => ?_
  obtain rfl := hask
  split
  · exact Ends.bind (Vault.called_ends hmay h v _) fun _ r hr => Ends.returned hr
  · split
    · exact Ends.returned ⟨rfl, rfl⟩
    · exact Ends.bind (Vault.called_ends hmay h v _) fun _ r hr => Ends.returned hr

theorem performSave_edits (hmay : may) (state : EditState Form) :
    Ends may host (fun h r => Edited host app h r.2.2) (app.performSave fe state) := by
  unfold performSave
  split
  · rename_i values v _ hv
    refine Ends.bind (applyForm_ends fe host hmay values state v) fun h r hr => ?_
    obtain ⟨rfl, hp⟩ := hr
    obtain ⟨result, v'⟩ := r
    have called : Edited h app h (app.withVault v') := .withVault hv hp
    cases result with
    | error e => exact Ends.returned called
    | ok uuid =>
      refine Ends.bind ((app.withVault v').persistVault_edits h) fun h' result saved => ?_
      cases result with
      | error e => exact Ends.returned (called.trans saved)
      | ok _ =>
        refine Ends.bind (withView_persist_steady _ h' _) fun h'' app' hk => Ends.returned ?_
        obtain ⟨rfl, hk⟩ := hk
        exact (called.trans saved).trans (.kept hk)
  · exact Ends.returned .refl

theorem forgotten_kept (uuids : List Uuid) : Kept app (app.forgotten fe uuids) := by
  unfold forgotten
  exact (Kept.withView _).trans (.ite (.withView _) .refl)

theorem performDelete_edits (hmay : may) (uuid : Uuid) : Ends may host (Edited host app)
    (app.performDelete fe uuid) := by
  unfold performDelete
  split
  · exact Ends.returned .refl
  · rename_i v hv
    refine Ends.ask fun draw h hask => ?_
    obtain rfl := hask
    refine Ends.bind (Vault.called_ends hmay h v _) fun h' r hr => ?_
    obtain ⟨rfl, hp⟩ := hr
    have called : Edited h' app h' (app.withVault r.2) := .withVault hv hp
    refine Ends.bind ((app.withVault r.2).thenPersist_edits h' r.1) fun h'' result saved => ?_
    cases result with
    | error e => exact Ends.returned (called.trans saved)
    | ok _ =>
      exact (called.trans saved).steady
        ((persistUiState_steady _ h'').after ((app.withVault r.2).forgotten_kept fe [uuid]))

theorem finishBulkOp_edits (result : Except VaultError Unit) : Ends may host (Edited host app)
    (app.finishBulkOp result) := by
  refine Ends.bind (app.thenPersist_edits host result) fun h result saved => ?_
  cases result with
  | error e => exact Ends.returned saved
  | ok _ => exact saved.steady (app.withView_persist_steady h _)

theorem bulk_edits (hmay : may) (valid : Vault → Except VaultError Unit) (call : Uuid → Draw → VaultCall)
    (uuids : List Uuid) :
    Ends may host (fun h r => Edited host app h r.2) (app.bulk valid call uuids) := by
  unfold bulk
  split
  · exact Ends.returned .refl
  · rename_i v hv
    split
    · exact Ends.returned .refl
    · exact Ends.bind (Vault.calledEach_ends hmay host call v uuids) fun h r hr => by
        obtain ⟨rfl, hp⟩ := hr
        exact Ends.returned (.withVault hv hp)

theorem bulk_finish_edits (hmay : may) (valid : Vault → Except VaultError Unit) (call : Uuid → Draw → VaultCall)
    (uuids : List Uuid) :
    Ends may host (Edited host app) (app.bulk valid call uuids >>= fun r => r.2.finishBulkOp r.1) :=
  Ends.bind (app.bulk_edits host hmay valid call uuids) fun h r he =>
    Upholds.mono (fun _ _ hf => he.trans hf) (r.2.finishBulkOp_edits h r.1)

theorem applyMoveToGroup_edits (hmay : may) (target : Uuid) : Ends may host (Edited host app)
    (app.applyMoveToGroup target) :=
  app.bulk_finish_edits host hmay _ _ _

theorem applyTag_edits (hmay : may) (action : TagAction) (tag : String) : Ends may host (Edited host app)
    (app.applyTag action tag) := by
  unfold applyTag
  split
  · exact app.finishBulkOp_edits host _
  · exact app.bulk_finish_edits host hmay _ _ _

theorem performBulkDelete_edits (hmay : may) (uuids : List Uuid) : Ends may host (Edited host app)
    (app.performBulkDelete fe uuids) := by
  refine Ends.bind (app.bulk_edits host hmay _ _ uuids) fun h r he => ?_
  refine Ends.bind (r.2.thenPersist_edits h r.1) fun h' result saved => ?_
  cases result with
  | error e => exact Ends.returned (he.trans saved)
  | ok _ =>
    exact (he.trans saved).steady
      ((persistUiState_steady _ h').after ((Kept.withView _).trans (r.2.unmarked.forgotten_kept fe uuids)))

/-! ## The overlays that edit -/

variable {app}

theorem reopened {h : Host} {app' : App Form} {overlay : Overlay Form} (he : Edited host app h app')
    (hm : app.MayWrite) :
    Edited host app h (putBack (some overlay, app')) := he.trans (.kept (.withOverlay fun _ => he.mayWrite.2 hm))

theorem onEditKey_edits (hmay : may) (hm : app.MayWrite) (state : EditState Form) (key : Key) :
    Ends may host (fun h r => Edited host app h (putBack r)) (app.onEditKey fe state key) := by
  unfold onEditKey
  refine Ends.ite (fun _ => reopened host .refl hm) fun _ => ?_
  refine Ends.ite (fun _ => Ends.returned .refl) fun _ => ?_
  refine Ends.ite (fun _ => ?_) fun _ => reopened host .refl hm
  refine Ends.bind (app.performSave_edits fe host hmay state) fun h r he => ?_
  obtain ⟨saved, state, app'⟩ := r
  cases saved with
  | false => exact reopened host he hm
  | true => exact Ends.returned he

theorem onConfirmKey_edits (hm : app.MayWrite) {overlay : Overlay Form} {confirmed : Ui (App Form)}
    (hc : Ends may host (Edited host app) confirmed) (key : Key) :
    Ends may host (fun h r => Edited host app h (putBack r)) (app.onConfirmKey overlay confirmed key) := by
  unfold onConfirmKey
  split
  · exact Ends.bind hc fun _ _ he => Ends.returned he
  · exact Ends.bind hc fun _ _ he => Ends.returned he
  · exact Ends.returned .refl
  · exact Ends.returned .refl
  · exact Ends.returned .refl
  · exact reopened host .refl hm

theorem chosen_edits {act : Uuid → Ui (App Form)} (hact : ∀ uuid, Ends may host (Edited host app) (act uuid))
    (uuid : Option Uuid) : Ends may host (fun h r => Edited host app h (putBack r)) (app.chosen act uuid) := by
  cases uuid with
  | none => exact Ends.returned .refl
  | some uuid => exact Ends.bind (hact uuid) fun _ _ he => Ends.returned he

theorem onGroupPickerKey_edits (hmay : may) (hm : app.MayWrite) (state : GroupPickerState) (key : Key) :
    Ends may host (fun h r => Edited host app h (putBack r)) (app.onGroupPickerKey state key) := by
  unfold onGroupPickerKey
  split
  · exact Ends.returned .refl
  · exact reopened host .refl hm
  · exact reopened host .refl hm
  · exact reopened host .refl hm
  · exact reopened host .refl hm
  · exact chosen_edits host (app.applyMoveToGroup_edits host hmay) _
  · exact reopened host .refl hm

theorem onTagInputKey_edits (hmay : may) (hm : app.MayWrite) (state : TagInputState) (key : Key) :
    Ends may host (fun h r => Edited host app h (putBack r)) (app.onTagInputKey fe state key) := by
  unfold onTagInputKey
  split
  · exact Ends.returned .refl
  · exact Ends.ite (fun _ => Ends.returned .refl) fun _ =>
      Ends.bind (app.applyTag_edits host hmay _ _) fun _ _ he => Ends.returned he
  · exact reopened host .refl hm

theorem openAdd_kept (hm : app.MayWrite) : Kept app (app.openAdd fe) := .withOverlay fun _ => hm

theorem openEdit_kept (hm : app.MayWrite) : Kept app (app.openEdit fe) := by
  unfold openEdit
  split
  · exact .refl
  · split
    · exact .refl
    · exact .withOverlay fun _ => hm

theorem openDeleteConfirm_kept (hm : app.MayWrite) : Kept app app.openDeleteConfirm := by
  unfold openDeleteConfirm
  refine .ite (.withOverlay fun _ => hm) ?_
  split
  · exact .refl
  · exact .withOverlay fun _ => hm

theorem openGroupPicker_kept (hm : app.MayWrite) : Kept app (app.openGroupPicker fe) :=
  .ite .refl (.withOverlay fun _ => hm)

theorem openTagInput_kept (hm : app.MayWrite) (action : TagAction) : Kept app (app.openTagInput action) :=
  .ite .refl (.withOverlay fun _ => hm)

end App

end Falach.Tui
