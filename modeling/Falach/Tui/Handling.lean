import Falach.Tui.Edits
/-!
# What every event does

The handlers of keys and of the mouse, from the parts they are made of: no event asks for the registry while it is away.
-/

namespace Falach.Tui

open Keepass Program

variable {Form : Type} {may : Prop}

namespace App

variable (fe : Frontend Form) (host : Host) {app : App Form}

/-! ## Overlays that look -/

theorem chosen_steady {act : Uuid → Ui (App Form)} (hact : ∀ uuid, Steady may host app (act uuid))
    (uuid : Option Uuid) :
    Ends may host (fun h r => h = host ∧ Kept app (putBack r)) (app.chosen act uuid) := by
  cases uuid with
  | none => exact Ends.returned ⟨rfl, .refl⟩
  | some uuid => exact Ends.bind (hact uuid) fun _ _ hk => Ends.returned hk

theorem restoreSavedView_kept (saved : SavedView) : Kept app (app.restoreSavedView saved) := .withView _

theorem searchPrimaryAction_steady (uuid : Uuid) : Steady may host app (app.searchPrimaryAction fe uuid) := by
  unfold searchPrimaryAction
  split
  · exact app.copyFieldOf_steady host _ _
  · exact app.jumpToEntry_steady fe host _

theorem searchSecondaryAction_steady (uuid : Uuid) : Steady may host app (app.searchSecondaryAction fe uuid) := by
  unfold searchSecondaryAction
  split
  · exact app.jumpToEntry_steady fe host _
  · exact app.copyFieldOf_steady host _ _

theorem onSearchKey_steady (state : SearchState) (key : Key) :
    Ends may host (fun h r => h = host ∧ Kept app (putBack r)) (app.onSearchKey fe state key) := by
  have reopened : ∀ state, Ends may host (fun h r => h = host ∧ Kept app (putBack r))
      (return (some (.search state), app)) := fun state => Ends.returned ⟨rfl, .looking rfl⟩
  unfold onSearchKey
  refine Ends.ite (fun _ => Ends.returned ⟨rfl, restoreSavedView_kept _⟩) fun _ => ?_
  refine Ends.ite (fun _ => reopened _) fun _ => ?_
  refine Ends.ite (fun _ => chosen_steady host (searchSecondaryAction_steady fe host) _) fun _ => ?_
  refine Ends.ite (fun _ => ?_) fun _ => ?_
  · split
    · exact chosen_steady host (searchPrimaryAction_steady fe host) _
    · exact reopened _
  · refine Ends.ite (fun _ => chosen_steady host (searchPrimaryAction_steady fe host) _) fun _ => ?_
    refine Ends.ite (fun _ => reopened _) fun _ => ?_
    refine Ends.ite (fun _ => reopened _) fun _ => ?_
    split
    · exact reopened _
    · exact reopened _

theorem onHistoryKey_kept (state : HistoryState) (key : Key) : Kept app (putBack (app.onHistoryKey state key)) := by
  unfold onHistoryKey
  split
  · exact .refl
  · exact .looking rfl
  · exact .looking rfl
  · exact .looking rfl
  · exact .looking rfl
  · exact .looking rfl

/-! ## Unlocking -/

theorem moved_does {phase : Phase} {selectedVault : Option String} (hp : app.phase ≠ .workspace)
    (hp' : phase ≠ .workspace)
    (hg : app.Guarded) : Does host app host { app with phase := phase, selectedVault := selectedVault } :=
  ⟨.moved hp hp', hg⟩

theorem openUnlockPromptFor_does (hp : app.phase ≠ .workspace) (hg : app.Guarded) (name : String) :
    Does host app host (app.openUnlockPromptFor name) := moved_does host hp nofun hg

/-- The unlocked vault stays, or goes to a worker at once. -/
theorem unlocked_does {opened : App Form} {v : Vault} {r : Registry} (name : String) {syncs : Prop}
    {_ : Decidable syncs} {input : PasswordInput} {attempts : Nat} (hp : app.phase = .unlockPrompt name input attempts)
    (hr : app.registry = some r)
    (hc : opened.core = { app.core with
      phase := .workspace
      vault := some v
      selectedVault := some name
      timeout := (overrideOf r name).getD app.core.timeout }) (ho : opened.overlay = none) (password : Text) :
    Ends may { host with opened := some v } (Does host app)
      (if syncs then opened.startSync .onUnlock password else return opened) := by
  have unlocked : ∀ {h : Host} {app' : App Form}, Sends { host with opened := some v } opened.core h app'.core →
      app'.overlay = none → Does host app h app' := fun hs ho' =>
    ⟨.unlocked hp hr (hc ▸ hs), guarded_of_none ho'⟩
  refine Ends.ite (fun _ => ?_) fun _ => Ends.returned (unlocked .stays ho)
  exact Upholds.mono (fun _ _ hs => unlocked hs.1 hs.2) (startSync_sends _ .onUnlock password ho)

theorem tryUnlock_does {vaultName : String} {input : PasswordInput} {attempts : Nat}
    (hprompt : app.phase = .unlockPrompt vaultName input attempts) (ho : app.overlay = none) (typed : PasswordInput) :
    Ends may host (Does host app) (app.tryUnlock fe vaultName typed attempts) := by
  have hg : app.Guarded := guarded_of_none ho
  have hp : app.phase ≠ .workspace := by rw [hprompt]; exact nofun
  unfold tryUnlock
  split
  · exact Ends.returned (moved_does host hp nofun hg)
  · rename_i registered hfound
    obtain ⟨r, hr, -⟩ := Option.bind_eq_some_iff.1 hfound
    refine Ends.ask fun result h hask => ?_
    rcases result with e | vault
    · obtain rfl := hask
      split
      · rename_i heq; cases heq
      · exact Ends.ite (fun _ => Ends.returned (moved_does h hp nofun hg)) fun _ =>
          Ends.returned (moved_does h hp nofun hg)
      · exact Ends.returned (moved_does h hp nofun hg)
    · obtain ⟨-, -, rfl⟩ := hask
      refine Ends.ask fun now h hask => ?_
      obtain rfl := hask
      refine Ends.bind (arm_ends _ _ now vaultName r rfl hr) fun h app' ha => ?_
      obtain ⟨rfl, controller, rfl, htimeout⟩ := ha
      refine unlocked_does host vaultName hprompt hr ?_ ?_ _
      · exact congrArg (fun timeout => { app.core with
          phase := .workspace, vault := some vault, selectedVault := some vaultName, timeout := timeout }) htimeout
      · exact ho

theorem onUnlockPromptKey_does {vaultName : String} {input : PasswordInput} {attempts : Nat}
    (hprompt : app.phase = .unlockPrompt vaultName input attempts) (ho : app.overlay = none) (key : Key) :
    Ends may host (Does host app) (app.onUnlockPromptKey fe vaultName input attempts key) := by
  have hp : app.phase ≠ .workspace := by rw [hprompt]; exact nofun
  unfold onUnlockPromptKey
  split
  · exact Ends.returned (moved_does host hp nofun (guarded_of_none ho))
  · exact Ends.returned (moved_does host hp nofun (guarded_of_none ho))
  · exact tryUnlock_does fe host hprompt ho _

theorem onLockScreenKey_does (hp : app.phase ≠ .workspace) (hr : app.registry.isSome) (hg : app.Guarded) :
    Ends may host (Does host app) app.onLockScreenKey := by
  obtain ⟨r, hr⟩ := Option.isSome_iff_exists.1 hr
  unfold onLockScreenKey
  split
  · exact Ends.returned (moved_does host hp nofun hg)
  · rw [expectRegistry_bind hr]
    have hlist : Phase.unlockList ≠ .workspace := nofun
    exact Ends.returned ⟨.moved hp hlist, hg⟩

/-- Moving about in the list of vaults. -/
theorem unlockListNav_steady (hr : app.registry.isSome) {cmd : Command} (hcmd : cmd ≠ .confirm) :
    Steady may host app (app.unlockListNav cmd) := by
  obtain ⟨r, hr⟩ := Option.isSome_iff_exists.1 hr
  unfold unlockListNav
  rw [expectRegistry_bind hr]
  refine Ends.ite (fun _ => Steady.returned .refl) fun _ => ?_
  split
  · exact Steady.returned (.withView _)
  · exact Steady.returned (.withView _)
  · exact absurd rfl hcmd
  · exact Steady.returned .refl

theorem unlockListNav_does (hp : app.phase ≠ .workspace) (hr : app.registry.isSome) (hg : app.Guarded) (cmd : Command) :
    Ends may host (Does host app) (app.unlockListNav cmd) := by
  by_cases hcmd : cmd = .confirm
  · subst hcmd
    obtain ⟨r, hr⟩ := Option.isSome_iff_exists.1 hr
    unfold unlockListNav
    rw [expectRegistry_bind hr]
    refine Ends.ite (fun _ => Ends.returned (.kept .refl hg)) fun _ => ?_
    dsimp only
    split
    · exact Ends.returned (openUnlockPromptFor_does host hp hg _)
    · exact Ends.returned (.kept .refl hg)
  · exact (unlockListNav_steady host hr hcmd).does hg

/-! ## Commands -/

theorem settingsCommand_steady {cmd : Command} (hcmd : cmd ≠ .confirm) :
    Steady may host app (app.settingsCommand fe cmd) := by
  unfold settingsCommand
  split
  · exact Steady.returned (.withView _)
  · exact Steady.returned (.withView _)
  · exact absurd rfl hcmd
  · exact Steady.returned .refl

/-- Moving about, also with the mouse, keeps everything. -/
theorem execContextNav_steady (hr : app.phase = .unlockList → app.registry.isSome) {cmd : Command}
    (hcmd : cmd ≠ .confirm) : Steady may host app (app.execContextNav fe cmd) := by
  unfold execContextNav
  split
  · rename_i hp
    exact unlockListNav_steady host (hr hp) hcmd
  · split
    · exact Ends.ite (fun _ => app.treeCommand_steady fe host cmd) fun _ => Steady.returned (.withView _)
    · exact Steady.returned (.withView _)
    · exact settingsCommand_steady fe host hcmd
  · exact Steady.returned .refl
  · exact Steady.returned .refl

theorem execContextNav_does (hv : app.core.Valid) (hg : app.Guarded) (hin : app.inflight = none) (cmd : Command) :
    Ends may host (Does host app) (app.execContextNav fe cmd) := by
  have hr : app.registry.isSome := (hv.home hin).1
  by_cases hcmd : cmd = .confirm
  · subst hcmd
    unfold execContextNav
    split
    · rename_i hp
      exact unlockListNav_does host (by rw [hp]; exact nofun) hr hg _
    · split
      · refine Ends.ite (fun _ => ?_) fun _ => Ends.returned (.kept (.withView _) hg)
        exact (app.treeCommand_steady fe host _).does hg
      · exact Ends.returned (.kept (.withView _) hg)
      · exact activateSettingsRow_does fe host hin hr hg
    · exact Ends.returned (.kept .refl hg)
    · exact Ends.returned (.kept .refl hg)
  · exact (execContextNav_steady fe host (fun _ => hr) hcmd).does hg

theorem actCommand_does (hv : app.core.Valid) (hg : app.Guarded) {id : Command}
    (hin : id.availableDuringSync = false → app.inflight = none)
    (hro : id ∈ Command.roMutatingCommands → app.readOnly = false) :
    Ends may host (Does host app) (app.actCommand fe id) := by
  have keeps : ∀ {app'}, Kept app app' → Ends may host (Does host app) (return app') :=
    fun hk => Ends.returned (.kept hk hg)
  have may : id ∈ Command.roMutatingCommands → id.availableDuringSync = false → app.MayWrite := fun hmem hsync =>
    ⟨hro hmem, hin hsync⟩
  cases id with
  | quit | lockNow | help | nextTab | prevTab | jumpToTab | cycleScope | quickSelect | openEntry | generate =>
    exact keeps .refl
  | cancel | confirm | next | prev | parent | child => exact execContextNav_does fe host hv hg (hin rfl) _
  | jumpBack => exact (app.jump_steady fe host JumpHistory.goBack).does hg
  | jumpForward => exact (app.jump_steady fe host JumpHistory.goForward).does hg
  | focusPane => exact keeps (.withView _)
  | search => exact keeps (app.openSearch_kept fe)
  | addEntry => exact keeps (openAdd_kept fe (may (by decide) rfl))
  | editEntry => exact keeps (openEdit_kept fe (may (by decide) rfl))
  | deleteEntry => exact keeps (openDeleteConfirm_kept (may (by decide) rfl))
  | copyPassword => exact (app.doCopy_steady host _).does hg
  | copyUsername => exact (app.doCopy_steady host _).does hg
  | revealPassword => exact keeps app.execReveal_kept
  | history => exact keeps app.execHistory_kept
  | pinToggle => exact (app.togglePinSelected_steady host).does hg
  | sortCycle => exact keeps (.withView _)
  | visualMode => exact keeps (app.enterVisualMode_kept fe)
  | moveToGroup => exact keeps (openGroupPicker_kept fe (may (by decide) rfl))
  | addTag => exact keeps (openTagInput_kept (may (by decide) rfl) _)
  | removeTag => exact keeps (openTagInput_kept (may (by decide) rfl) _)
  | sync => exact keeps (requestSync_kept fe (hro (by decide)))

theorem openPalette_kept : Kept app app.openPalette := (Kept.withView _).trans (.looking rfl)

/-- The one place where commands are let through. -/
theorem executeCommand_does (hv : app.core.Valid) (hg : app.Guarded) (id : Command) (count : Option Nat) :
    Ends may host (Does host app) (app.executeCommand fe id count) := by
  unfold executeCommand
  refine Ends.ite (fun _ => Ends.returned (.kept .refl hg)) fun hro => ?_
  split
  · exact Ends.returned (.kept (requestQuit_kept fe) hg)
  · exact Ends.ite (fun _ => Ends.returned (requestLock_does fe host hg)) fun _ => Ends.returned (.kept .refl hg)
  · exact Ends.returned (.kept openPalette_kept hg)
  · exact (app.applyTabMotion_steady host _ _).does hg
  · exact (app.applyTabMotion_steady host _ _).does hg
  · exact (app.applyTabMotion_steady host _ _).does hg
  · refine Ends.ite (fun _ => Ends.returned (.kept .refl hg)) fun hsync => actCommand_does fe host hv hg ?_ ?_
    · intro havailable
      simpa [isSyncing, havailable] using hsync
    · intro hmem
      simpa [hmem] using hro

/-! ## Keys -/

theorem onNavKey_does (hv : app.core.Valid) (hg : app.Guarded) (key : Key) :
    Ends may host (Does host app) (app.onNavKey fe key) := by
  unfold onNavKey
  split
  · exact executeCommand_does fe host hv hg _ _
  · exact Ends.returned (.kept .refl hg)

theorem onPinnedKey_does (hv : app.core.Valid) (hg : app.Guarded) (key : Key) :
    Ends may host (Does host app) (app.onPinnedKey fe key) := by
  unfold onPinnedKey
  split
  · exact executeCommand_does fe host hv hg _ _
  · exact onNavKey_does fe host hv hg key

theorem onNormalSecretsKey_does (hv : app.core.Valid) (hg : app.Guarded) (key : Key) :
    Ends may host (Does host app) (app.onNormalSecretsKey fe key) := by
  unfold onNormalSecretsKey
  refine Ends.ite (fun _ => Ends.returned (.kept (.withView _) hg)) fun _ => ?_
  refine Ends.ite (fun _ => Ends.returned (.kept app.toggleCurrentMark_kept hg)) fun _ => ?_
  refine Ends.ite (fun _ => executeCommand_does fe host hv hg _ _) fun _ => ?_
  refine Ends.ite (fun _ => executeCommand_does fe host hv hg _ _) fun _ => ?_
  refine Ends.ite (fun _ => executeCommand_does fe host hv hg _ _) fun _ => ?_
  split
  · exact executeCommand_does fe host hv hg _ _
  · exact onNavKey_does fe host hv hg key

theorem onSecretsKey_does (hv : app.core.Valid) (hg : app.Guarded) (key : Key) :
    Ends may host (Does host app) (app.onSecretsKey fe key) := by
  unfold onSecretsKey
  split
  · rename_i handled heq
    have hvisual : app.handleVisualKey fe key = some handled := by
      split at heq
      · cases heq
      · exact heq
    exact (app.handleVisualKey_steady fe host hvisual).does hg
  · exact onNormalSecretsKey_does fe host hv hg key

theorem onWorkspaceKey_does (hv : app.core.Valid) (hg : app.Guarded) (key : Key) :
    Ends may host (Does host app) (app.onWorkspaceKey fe key) := by
  have shown : ∀ view, (app.withView view).core.Valid ∧ (app.withView view).Guarded := fun _ => ⟨hv, hg⟩
  unfold onWorkspaceKey
  dsimp only
  split
  · exact Kept.does (.withView _) (executeCommand_does fe host (shown _).1 (shown _).2 _ _)
  · exact Ends.returned (.kept (.withView _) hg)
  · split
    · exact Kept.does (.withView _) (onSecretsKey_does fe host (shown _).1 (shown _).2 key)
    · exact Kept.does (.withView _) (onNavKey_does fe host (shown _).1 (shown _).2 key)
    · exact Kept.does (.withView _) (onPinnedKey_does fe host (shown _).1 (shown _).2 key)

theorem onPhaseKey_does (hv : app.core.Valid) (ho : app.overlay = none) (key : Key) :
    Ends may host (Does host app) (app.onPhaseKey fe key) := by
  have hg : app.Guarded := guarded_of_none ho
  unfold onPhaseKey
  split
  · exact onNavKey_does fe host hv hg key
  · rename_i hp
    exact onUnlockPromptKey_does fe host hp ho key
  · rename_i hp
    have hp : app.phase ≠ .workspace := by rw [hp]; exact nofun
    exact onLockScreenKey_does host hp (hv.home (hv.inflight_none hp)).1 hg
  · exact onWorkspaceKey_does fe host hv hg key

/-! ## Overlays -/

theorem onPaletteKey_does (hv : app.core.Valid) (hg : app.Guarded) (state : PaletteState) (key : Key) :
    Ends may host (fun h r => Does host app h (putBack r)) (app.onPaletteKey fe state key) := by
  have reopened : ∀ state, Ends may host (fun h r => Does host app h (putBack r))
      (return (some (.palette state), app)) := fun state => Ends.returned (.kept (.looking rfl) hg)
  unfold onPaletteKey
  dsimp only
  split
  · exact Ends.returned (.kept .refl hg)
  · split
    · exact Ends.bind (executeCommand_does fe host hv hg _ _) fun _ _ hd => Ends.returned hd
    · exact reopened _
  · exact reopened _
  · exact reopened _
  · refine Ends.ite (fun _ => reopened _) fun _ => Ends.ite (fun _ => reopened _) fun _ => ?_
    split
    · exact reopened _
    · exact reopened _

/-- The overlay was taken out; one that writes was open where it may. -/
theorem onOverlay_does (hv : app.core.Valid) (ho : app.overlay = none) (key : Key) (overlay : Overlay Form)
    (hw : overlay.writes = true → app.MayWrite) (hmay : app.readOnly = false → may) :
    Ends may host (fun h r => Does host app h (putBack r)) (app.onOverlay fe key overlay) := by
  have hg : app.Guarded := guarded_of_none ho
  have edits : ∀ {p : Ui (Handled Form)}, app.MayWrite → Ends may host (fun h r => Edited host app h (putBack r)) p →
      Ends may host (fun h r => Does host app h (putBack r)) p := fun hm hp =>
    Upholds.mono (fun _ _ he => he.does hm.1 hg) hp
  cases overlay with
  | search state =>
    exact Upholds.mono (fun _ _ hk => by
      obtain ⟨rfl, hk⟩ := hk; exact .kept hk hg) (onSearchKey_steady fe host state key)
  | edit state => exact edits (hw rfl) (onEditKey_edits fe host (hmay (hw rfl).1) (hw rfl) state key)
  | history state => exact Ends.returned (.kept (onHistoryKey_kept state key) hg)
  | confirmDelete uuid =>
    exact edits (hw rfl) (onConfirmKey_edits host (hw rfl) (app.performDelete_edits fe host (hmay (hw rfl).1) uuid) key)
  | confirmBulkDelete uuids =>
    exact edits (hw rfl) (onConfirmKey_edits host (hw rfl) (app.performBulkDelete_edits fe host (hmay (hw rfl).1)
      uuids) key)
  | confirmQuit => exact onConfirmQuitKey_does fe host hg key
  | groupPicker state => exact edits (hw rfl) (onGroupPickerKey_edits host (hmay (hw rfl).1) (hw rfl) state key)
  | tagInput state => exact edits (hw rfl) (onTagInputKey_edits fe host (hmay (hw rfl).1) (hw rfl) state key)
  | syncUnlock input pending => exact onSyncUnlockKey_does host ho (hw rfl) input pending key
  | syncConfig state => exact onSyncConfigKey_does fe host ho (hw rfl) state key
  | palette state => exact onPaletteKey_does fe host hv hg state key

theorem onOverlayKey_does (hmay : app.readOnly = false → may) (hv : app.core.Valid) (hg : app.Guarded)
    {overlay : Overlay Form}
    (ho : app.overlay = some overlay) (key : Key) :
    Ends may host (Does host app) (app.onOverlayKey fe overlay key) := by
  have hw : overlay.writes = true → app.MayWrite := fun hw => hg (by rw [writing, ho]; exact hw)
  have taken : ({ app with overlay := none } : App Form).core.Valid := hv
  refine Ends.bind (onOverlay_does fe host taken rfl key overlay hw hmay) fun h r hd => Ends.returned ?_
  obtain ⟨kept, app'⟩ := r
  cases kept with
  | none => exact ⟨hd.effect, hd.guarded⟩
  | some overlay => exact ⟨hd.effect, hd.guarded⟩

theorem handleKey_does (hmay : app.readOnly = false → may) (hv : app.core.Valid) (hg : app.Guarded) (key : Key) :
    Ends may host (Does host app) (app.handleKey fe key) := by
  unfold handleKey
  refine Ends.ite (fun _ => Ends.returned (.kept .refl hg)) fun _ => ?_
  refine Ends.ite (fun _ => executeCommand_does fe host hv hg _ _) fun _ => ?_
  refine Ends.ite (fun _ => executeCommand_does fe host hv hg _ _) fun _ => ?_
  split
  · rename_i overlay ho
    exact onOverlayKey_does fe host hmay hv hg ho key
  · rename_i ho
    exact Ends.ite (fun _ => executeCommand_does fe host hv hg _ _) fun _ => onPhaseKey_does fe host hv ho key

/-! ## The mouse and the screen -/

theorem mouseSelectTreeRow_kept (i : Nat) : Kept app (app.mouseSelectTreeRow fe i) := by
  unfold mouseSelectTreeRow
  split
  · exact .withView _
  · exact .refl

theorem applyMouseTarget_does (hv : app.core.Valid) (hg : app.Guarded) (target : MouseTarget) :
    Ends may host (Does host app) (app.applyMouseTarget fe target) := by
  cases target with
  | tab index => exact (Steady.after (.withView _) (onTabSwitched_steady _ host)).does hg
  | hintMore => exact executeCommand_does fe host hv hg .help none
  | detailPane => exact Ends.returned (.kept (.withView _) hg)
  | treeRow i => exact Ends.returned (.kept (mouseSelectTreeRow_kept fe i) hg)
  | searchRow i =>
    unfold applyMouseTarget
    dsimp only
    split
    · exact Ends.ite (fun _ => Ends.returned (.kept (.looking rfl) hg)) fun _ => Ends.returned (.kept .refl hg)
    · exact Ends.returned (.kept .refl hg)
  | paletteRow i =>
    unfold applyMouseTarget
    dsimp only
    split
    · exact Ends.returned (.kept (.looking rfl) hg)
    · exact Ends.returned (.kept .refl hg)

theorem mouseScroll_steady (hv : app.core.Valid) (hit : Option MouseTarget) (down : Bool) :
    Steady may host app (app.mouseScroll fe hit down) := by
  have hdirection : (if down then Command.next else .prev) ≠ .confirm := by cases down <;> exact nofun
  have step : ∀ app', Kept app app' →
      Steady may host app' (app'.execContextNav fe (if down then Command.next else .prev)) := fun app' hk =>
    execContextNav_steady fe host (fun hp => by
      have hv' : app'.core.Valid := hk.core.symm ▸ hv
      have hp' : app'.core.phase ≠ .workspace := by rw [show app'.core.phase = .unlockList from hp]; exact nofun
      exact (hv'.home (hv'.inflight_none hp')).1) hdirection
  have thrice : ∀ app', Kept app app' → Steady may host app (do
      let app ← app'.execContextNav fe (if down then Command.next else .prev)
      let app ← app.execContextNav fe (if down then Command.next else .prev)
      app.execContextNav fe (if down then Command.next else .prev)) := fun app' hk =>
    Steady.after hk ((step app' hk).bind fun app₁ h₁ => (step app₁ (hk.trans h₁)).bind fun app₂ h₂ =>
      step app₂ ((hk.trans h₁).trans h₂))
  unfold mouseScroll
  dsimp only
  split
  · split
    · exact Steady.returned (.looking rfl)
    · exact Steady.returned .refl
  · split
    · exact Steady.returned (.looking rfl)
    · exact Steady.returned .refl
  · refine thrice _ ?_
    split
    · exact .withView _
    · exact .withView _
    · exact .refl

theorem handleMouse_does (hv : app.core.Valid) (hg : app.Guarded) (event : MouseEvent) :
    Ends may host (Does host app) (app.handleMouse fe event) := by
  unfold handleMouse
  refine Ends.ite (fun _ => Ends.returned (.kept .refl hg)) fun _ => ?_
  split
  · split
    · exact applyMouseTarget_does fe host hv hg _
    · exact Ends.returned (.kept .refl hg)
  · exact (mouseScroll_steady fe host hv event.hit true).does hg
  · exact (mouseScroll_steady fe host hv event.hit false).does hg
  · exact Ends.returned (.kept .refl hg)

theorem drawRegistry_ends (hv : app.core.Valid) : Ends may host (fun h _ => h = host) app.drawRegistry := by
  unfold drawRegistry
  split
  · rename_i hp
    have hp : app.core.phase ≠ .workspace := by rw [show app.core.phase = .unlockList from hp]; exact nofun
    obtain ⟨r, hr⟩ := hv.registry (hv.inflight_none hp)
    rw [expectRegistry_bind hr]
    exact Ends.returned rfl
  · refine Ends.ite (fun hsettings => ?_) fun _ => Ends.returned rfl
    have hin : app.inflight = none := by simpa [isSyncing] using hsettings.1
    exact Ends.bind (currentAutoLockSeconds_ends host (hv.home hin).1) fun h _ hh => by
      obtain rfl := hh
      exact Ends.returned rfl
  · exact Ends.returned rfl
  · exact Ends.returned rfl

theorem render_steady (hv : app.core.Valid) (viewport : Option Nat) : Steady may host app (app.render viewport) :=
  Ends.bind (drawRegistry_ends host hv) fun h _ hh => by
    obtain rfl := hh
    refine Steady.returned ?_
    split
    · exact .looking rfl
    · exact .refl

end App

end Falach.Tui
