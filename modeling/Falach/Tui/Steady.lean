import Falach.Tui.Session
/-!
# What looking changes

Nothing that the panes do reaches the vault, the registry or a file of either: only what is shown, the clipboard and
`tui.toml`.
-/

namespace Falach.Tui

open Keepass Program

variable {Form : Type}

/-! ## What matters beside what is shown -/

structure Core where
  phase : Phase
  vault : Option Vault
  registry : Option Registry
  timeout : AutoLockConfig
  readOnly : Bool
  selectedVault : Option String
  inflight : Option Nat
  lockPending : Bool

def App.core (app : App Form) : Core :=
  ⟨app.phase, app.vault, app.registry, app.controller.config, app.readOnly, app.selectedVault, app.inflight,
    app.lockPending⟩

/-- The overlay can change a vault or the registry, or send the vault away. -/
def Overlay.writes : Overlay Form → Bool
  | .edit _ | .confirmDelete _ | .confirmBulkDelete _ | .groupPicker _ | .tagInput _ | .syncUnlock _ _
  | .syncConfig _ => true
  | .search _ | .history _ | .confirmQuit | .palette _ => false

def App.writing (app : App Form) : Bool := app.overlay.any Overlay.writes

/-- The session may write, and no worker has the vault. -/
def App.MayWrite (app : App Form) : Prop := app.readOnly = false ∧ app.inflight = none

/-- An overlay that can write is open only where it may. -/
def App.Guarded (app : App Form) : Prop := app.writing = true → app.MayWrite

/-- Nothing but what is shown has changed, and no overlay that can write was opened where it may not. -/
structure Kept (app app' : App Form) : Prop where
  core : app'.core = app.core
  writing : app'.writing = true → app.writing = true ∨ app.MayWrite

namespace Kept

variable {app app' app'' : App Form}

theorem refl : Kept app app := ⟨rfl, .inl⟩

theorem mayWrite (h : Kept app app') : app'.MayWrite ↔ app.MayWrite := by
  have hro : app'.readOnly = app.readOnly := congrArg Core.readOnly h.core
  have hin : app'.inflight = app.inflight := congrArg Core.inflight h.core
  simp only [App.MayWrite, hro, hin]

theorem trans (h : Kept app app') (h' : Kept app' app'') : Kept app app'' :=
  ⟨h'.core.trans h.core, fun hw => (h'.writing hw).elim h.writing fun hm => .inr (h.mayWrite.1 hm)⟩

theorem guarded (h : Kept app app') (hg : app.Guarded) : app'.Guarded := fun hw =>
  h.mayWrite.2 ((h.writing hw).elim hg id)

theorem withView (f : View → View) : Kept app (app.withView f) := ⟨rfl, .inl⟩

theorem ite {p : Prop} [Decidable p] (h : Kept app app') (h' : Kept app app'') :
    Kept app (if p then app' else app'') := by
  split
  · exact h
  · exact h'

/-- An overlay is opened that does not write, or that may. -/
theorem withOverlay {overlay : Overlay Form} (h : overlay.writes = true → app.MayWrite) :
    Kept app (app.withOverlay overlay) :=
  ⟨rfl, fun hw => .inr (h hw)⟩

theorem looking {overlay : Overlay Form} (h : overlay.writes = false) : Kept app (app.withOverlay overlay) :=
  withOverlay fun hw => absurd (h.symm.trans hw) nofun

end Kept

/-! ## How a part of an event ends -/

/-- The part never asks for the registry while it is away, a call of the vault panics only if it `may`, and `Q` holds at
its end. -/
abbrev Ends {α : Type} (may : Prop) (host : Host) (Q : Host → α → Prop) (p : Ui α) : Prop :=
  p.Upholds (fun _ _ => True) Host.Exec Q (fun _ e => e ≠ .registryAway ∧ may) host

/-- The part keeps everything, and returns the application. -/
abbrev Steady (may : Prop) (host : Host) (app : App Form) (p : Ui (App Form)) : Prop :=
  Ends may host (fun h app' => h = host ∧ Kept app app') p

namespace Ends

variable {may : Prop} {α β : Type} {host : Host} {Q Q' : Host → α → Prop}

theorem returned {a : α} (h : Q host a) : Ends may host Q (pure a) := h

theorem bind {R : Host → β → Prop} {p : Ui α} {f : α → Ui β} (h : Ends may host Q p)
    (hf : ∀ host' a, Q host' a → Ends may host' R (f a)) : Ends may host R (p >>= f) :=
  Upholds.bind (Upholds.mono hf h)

theorem ask {R : Host → β → Prop} {op : AppOp} {f : AppAnswer op → Ui β}
    (hf : ∀ a host', host.Exec op a host' → Ends may host' R (f a)) : Ends may host R (request AppAnswer op >>= f) :=
  ⟨trivial, hf⟩

theorem ite {c : Prop} [Decidable c] {p q : Ui α} (hp : c → Ends may host Q p) (hq : ¬ c → Ends may host Q q) :
    Ends may host Q (if c then p else q) := by
  split
  · rename_i hc; exact hp hc
  · rename_i hc; exact hq hc

end Ends

namespace Steady

variable {may : Prop} {host : Host} {app app' : App Form}

theorem returned (h : Kept app app') : Steady may host app (pure app') := ⟨rfl, h⟩

/-- A part after some that kept everything. -/
theorem after {p : Ui (App Form)} (h : Kept app app') (hp : Steady may host app' p) : Steady may host app p :=
  Upholds.mono (fun _ _ hq => ⟨hq.1, h.trans hq.2⟩) hp

theorem bind {p : Ui (App Form)} {f : App Form → Ui (App Form)} (h : Steady may host app p)
    (hf : ∀ app', Kept app app' → Steady may host app' (f app')) : Steady may host app (p >>= f) :=
  Ends.bind h fun _ app' hk => by
    obtain ⟨rfl, hk⟩ := hk
    exact (hf app' hk).after hk

end Steady

/-! ## The panes -/

namespace App

variable {may : Prop} (fe : Frontend Form) (app : App Form) (host : Host)

theorem persistUiState_steady : Steady may host app app.persistUiState := by
  unfold persistUiState
  split
  · refine Ends.ask fun _ host' hask => ?_
    obtain rfl := hask
    exact Steady.returned ⟨rfl, .inl⟩
  · exact Steady.returned .refl

theorem withView_persist_steady (f : View → View) : Steady may host app (app.withView f).persistUiState :=
  (persistUiState_steady _ host).after (.withView f)

theorem updateUserConfig_steady (update : UserConfig → UserConfig) :
    Ends may host (fun h r => h = host ∧ Kept app r.2) (app.updateUserConfig update) := by
  refine Ends.ask fun latest host' hask => ?_
  obtain rfl := hask
  cases latest with
  | none => exact ⟨rfl, .refl⟩
  | some latest => exact ⟨rfl, rfl, .inl⟩

theorem expandAncestors_kept (uuid : Uuid) : Kept app (app.expandAncestors fe uuid) := by
  unfold expandAncestors
  split
  · exact .withView _
  · exact .refl

theorem jumpToEntry_steady (uuid : Uuid) : Steady may host app (app.jumpToEntry fe uuid) :=
  (withView_persist_steady _ host _).after (app.expandAncestors_kept fe uuid)

theorem enterDetail_steady (uuid : Uuid) : Steady may host app (app.enterDetail uuid) :=
  app.withView_persist_steady host _

theorem jumpToHistory_steady (uuid : Uuid) : Steady may host app (app.jumpToHistory fe uuid) := by
  unfold jumpToHistory
  split
  · exact Steady.returned .refl
  · have shown : Kept app ((app.expandAncestors fe uuid).withView fun view =>
        { view with
          tabs := view.tabs.jumpTo 1
          tree := view.tree.select uuid
          revealPassword := false
          detailScroll := 0 }) := (app.expandAncestors_kept fe uuid).trans (.withView _)
    dsimp only
    split
    · exact Steady.returned (shown.trans (.withView _))
    · exact (withView_persist_steady _ host _).after shown

theorem jump_steady (walk : JumpHistory → Uuid → Option Uuid × JumpHistory) :
    Steady may host app (app.jump fe walk) := by
  unfold jump
  split
  · exact Steady.returned .refl
  · dsimp only
    split
    · exact (jumpToHistory_steady fe _ host _).after (.withView _)
    · exact Steady.returned (.withView _)

theorem treeCommand_steady (cmd : Command) : Steady may host app (app.treeCommand fe cmd) := by
  unfold treeCommand
  split
  · exact Steady.returned .refl
  · dsimp only
    split
    · exact Steady.returned (.withView _)
    · exact Steady.returned (.withView _)
    · exact Steady.returned (.withView _)
    · refine Ends.ite (fun _ => ?_) fun _ => Steady.returned (.withView _)
      split
      · exact app.enterDetail_steady host _
      · exact Steady.returned .refl
    · refine Ends.ite (fun _ => ?_) fun _ => Steady.returned (.withView _)
      split
      · exact app.enterDetail_steady host _
      · exact Steady.returned .refl
    · exact Steady.returned .refl

theorem onTabSwitched_steady : Steady may host app app.onTabSwitched := by
  unfold onTabSwitched
  dsimp only
  split
  · exact (withView_persist_steady _ host _).after (.withView _)
  · exact Steady.returned (.withView _)

theorem applyTabMotion_steady (cmd : Command) (count : Option Nat) :
    Steady may host app (app.applyTabMotion cmd count) := by
  unfold applyTabMotion
  split
  · exact (onTabSwitched_steady _ host).after (.withView _)
  · exact (onTabSwitched_steady _ host).after (.withView _)
  · exact (onTabSwitched_steady _ host).after (.withView _)
  · exact Steady.returned .refl

theorem togglePinSelected_steady : Steady may host app app.togglePinSelected := by
  unfold togglePinSelected
  split
  · exact app.withView_persist_steady host _
  · exact Steady.returned .refl

theorem execReveal_kept : Kept app app.execReveal := by
  unfold execReveal
  exact Kept.ite (.withView _) .refl

theorem recomputeVisualMarks_kept : Kept app (app.recomputeVisualMarks fe) := by
  unfold recomputeVisualMarks
  split
  · exact .withView _
  · exact .refl

theorem enterVisualMode_kept : Kept app (app.enterVisualMode fe) := by
  unfold enterVisualMode
  split
  · exact .refl
  · exact (Kept.withView _).trans (recomputeVisualMarks_kept fe _)

theorem toggleCurrentMark_kept : Kept app app.toggleCurrentMark := by
  unfold toggleCurrentMark
  split
  · exact .refl
  · exact .withView _

theorem handleVisualKey_steady {key : Key} {handled : Ui (App Form)} (h : app.handleVisualKey fe key = some handled) :
    Steady may host app handled := by
  unfold handleVisualKey at h
  split at h
  · cases h
    exact (app.treeCommand_steady fe host _).bind fun app' _ => Steady.returned (app'.recomputeVisualMarks_kept fe)
  · split at h
    · cases h
      exact (app.treeCommand_steady fe host _).bind fun app' _ => Steady.returned (app'.recomputeVisualMarks_kept fe)
    · split at h
      · cases h
        exact Steady.returned app.toggleCurrentMark_kept
      · split at h
        · cases h
          exact Steady.returned (.withView _)
        · cases h

theorem copyFieldOf_steady (uuid : Uuid) (field : CopyField) : Steady may host app (app.copyFieldOf uuid field) := by
  unfold copyFieldOf
  split
  · exact Steady.returned .refl
  · refine Ends.ite (fun _ => Steady.returned .refl) fun _ => Ends.ask fun copied host' hask => ?_
    obtain rfl := hask
    exact Ends.ite (fun _ => app.withView_persist_steady host' _) fun _ => Steady.returned .refl

theorem doCopy_steady (field : CopyField) : Steady may host app (app.doCopy field) := by
  unfold doCopy
  split
  · exact Steady.returned .refl
  · exact app.copyFieldOf_steady host _ field

/-! ## History and search -/

theorem openHistoryFor_kept (uuid : Uuid) : Kept app (app.openHistoryFor uuid) := by
  unfold openHistoryFor
  split
  · exact .refl
  · exact .looking rfl

theorem execHistory_kept : Kept app app.execHistory := by
  unfold execHistory
  split
  · exact app.openHistoryFor_kept _
  · split
    · exact .refl
    · exact app.openHistoryFor_kept _

theorem openSearch_kept : Kept app (app.openSearch fe) := .looking rfl

end App

end Falach.Tui
