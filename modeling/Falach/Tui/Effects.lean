import Falach.Tui.Steady
/-!
# What an event does

To the vault, the registry, their files and the workers: once for each handler, and in the end for every event. What
holds in all sessions is read off it.
-/

namespace Falach.Tui

open Keepass Program

variable {Form : Type} {may : Prop}

/-! ## Effects -/

/-- A sync starts, or not. -/
inductive Sends (h : Host) (c : Core) : Host → Core → Prop where
  | stays : Sends h c h c
  | spawned {v : Vault} {r : Registry} {trigger : SyncTrigger} : c.readOnly = false → c.vault = some v →
      c.registry = some r →
      Sends h c { h with workers := h.workers ++ [{ job := .syncing v r, trigger := trigger }] }
        { c with vault := none, registry := none, inflight := some h.workers.length }

/-- What an event can do; the last three are what a tick finds in the channel of a worker. -/
inductive Effect (h : Host) (c : Core) : Host → Core → Prop where
  | left {h' : Host} {c' : Core} : Sends h c h' c' → Effect h c h' c'
  | moved {phase : Phase} {selectedVault : Option String} : c.phase ≠ .workspace → phase ≠ .workspace →
      Effect h c h { c with phase := phase, selectedVault := selectedVault }
  | unlocked {name : String} {input : PasswordInput} {attempts : Nat} {v : Vault} {r : Registry} {h' : Host}
      {c' : Core} :
      c.phase = .unlockPrompt name input attempts → c.registry = some r → Sends { h with opened := some v }
        { c with
          phase := .workspace
          vault := some v
          selectedVault := some name
          timeout := (App.overrideOf r name).getD c.timeout } h' c' → Effect h c h' c'
  | edited {files : HashMap String Bytes} {vault : Option Vault} : c.readOnly = false →
      vault.map (·.path) = c.vault.map (·.path) →
      (∀ path, c.vault.map (·.path) ≠ some path → files.lookup path = h.vaultFiles.lookup path) →
      Effect h c { h with vaultFiles := files } { c with vault := vault }
  | configured {vaultsToml : Option String} {registry : Option Registry} {timeout : AutoLockConfig} :
      c.readOnly = false → c.registry.isSome → registry.isSome →
      Effect h c { h with vaultsToml := vaultsToml } { c with registry := registry, timeout := timeout }
  | locked : c.inflight = none → Effect h c h { c with phase := .lockScreen, vault := none }
  | deferred : c.inflight.isSome → Effect h c h { c with lockPending := true }
  | pending {i : Nat} {w : Worker} {lockPending : Bool} : c.inflight = some i → h.workers[i]? = some w →
      (App.drained w.disconnected w.queue).2 = false → (c.lockPending = true → lockPending = true) →
      Effect h c (h.withWorker i w.emptied) { c with lockPending := lockPending }
  | collected {i : Nat} {w : Worker} {r : Registry} : c.inflight = some i → h.workers[i]? = some w →
      (App.drained w.disconnected w.queue).2 = true →
      Effect h c (h.withWorker i w.emptied)
        { c with phase := .lockScreen, vault := none, registry := some r, inflight := none, lockPending := false }
  | handedBack {i : Nat} {w : Worker} {result : SyncResult} : c.inflight = some i → h.workers[i]? = some w →
      .done result ∈ w.queue → c.lockPending = false →
      Effect h c (h.withWorker i w.emptied)
        { c with vault := some result.vault, registry := some result.registry, inflight := none }

namespace Core

/-- While no sync is in flight the application has the registry, and the vault if one is unlocked; while one is, it has
neither. -/
structure Valid (c : Core) : Prop where
  home : c.inflight = none → c.registry.isSome ∧ (c.vault.isSome ↔ c.phase = .workspace) ∧ c.lockPending = false
  away : c.inflight ≠ none → c.phase = .workspace ∧ c.vault = none ∧ c.registry = none

variable {c c' : Core} {h h' : Host}

theorem Valid.inflight_none (hv : c.Valid) (hp : c.phase ≠ .workspace) : c.inflight = none := by
  by_contra hin
  exact hp (hv.away hin).1

theorem Valid.registry (hv : c.Valid) (hin : c.inflight = none) : ∃ r, c.registry = some r :=
  Option.isSome_iff_exists.1 (hv.home hin).1

end Core

/-- What a part of an event does, which opens no overlay that can write where it may not. -/
structure Does (host : Host) (app : App Form) (h : Host) (app' : App Form) : Prop where
  effect : Effect host app.core h app'.core
  guarded : app'.Guarded

namespace Does

variable {host h : Host} {app app' app'' : App Form}

theorem kept (hk : Kept app app') (hg : app.Guarded) : Does host app host app' :=
  ⟨hk.core.symm ▸ .left .stays, hk.guarded hg⟩

/-- What is kept before counts for nothing. -/
theorem after (hk : Kept app app') (hd : Does host app' h app'') : Does host app h app'' :=
  ⟨hk.core ▸ hd.effect, hd.guarded⟩

theorem andKept (hd : Does host app h app') (hk : Kept app' app'') : Does host app h app'' :=
  ⟨hk.core.symm ▸ hd.effect, hk.guarded hd.guarded⟩

end Does

theorem Steady.does {host : Host} {app : App Form} {p : Ui (App Form)} (h : Steady may host app p) (hg : app.Guarded) :
    Ends may host (Does host app) p :=
  Upholds.mono (fun _ _ hq => by obtain ⟨rfl, hk⟩ := hq; exact .kept hk hg) h

/-- A part after what kept everything. -/
theorem Kept.does {host : Host} {app app' : App Form} {p : Ui (App Form)} (hk : Kept app app')
    (hp : Ends may host (Does host app') p) : Ends may host (Does host app) p :=
  Upholds.mono (fun _ _ hd => hd.after hk) hp

namespace App

variable (fe : Frontend Form) (host : Host)

/-- The application after its overlay has handled a key. -/
def putBack (r : Handled Form) : App Form :=
  match r.1 with
  | some overlay => r.2.withOverlay overlay
  | none => r.2

variable {app : App Form}

/-! ## Locking and syncing -/

theorem writing_of_none {app' : App Form} (ho : app'.overlay = none) {p : Prop} (hw : app'.writing = true) : p := by
  rw [writing, ho] at hw
  cases hw

theorem guarded_of_none {app' : App Form} (ho : app'.overlay = none) : app'.Guarded := writing_of_none ho

theorem lockApp_does (hin : app.inflight = none) : Does host app host app.lockApp := ⟨.locked hin, writing_of_none rfl⟩

theorem requestSync_kept (hro : app.readOnly = false) : Kept app (app.requestSync fe) := by
  unfold requestSync
  split
  · exact .refl
  · rename_i h
    refine .withOverlay fun _ => ⟨hro, ?_⟩
    simpa [isSyncing] using (not_or.1 h).1

theorem shouldSyncOnLeave_readOnly (h : app.shouldSyncOnLeave fe = true) : app.readOnly = false := by
  unfold shouldSyncOnLeave at h
  simp only [Bool.and_eq_true, Bool.not_eq_true'] at h
  exact h.1.1.1

theorem requestLock_does (hg : app.Guarded) : Does host app host (app.requestLock fe) := by
  unfold requestLock
  split
  · rename_i hsync
    exact ⟨.deferred hsync, hg⟩
  · rename_i hsync
    have hin : app.inflight = none := by simpa [isSyncing] using hsync
    split
    · rename_i hleave
      exact .kept (.withOverlay fun _ => ⟨shouldSyncOnLeave_readOnly fe hleave, hin⟩) hg
    · exact lockApp_does host hin

theorem doQuit_kept : Kept app (app.doQuit fe) := by
  unfold doQuit
  split
  · rename_i h
    refine .withOverlay fun _ => ⟨shouldSyncOnLeave_readOnly fe h.2.2, ?_⟩
    simpa [isSyncing] using h.2.1
  · exact ⟨rfl, .inl⟩

theorem requestQuit_kept : Kept app (app.requestQuit fe) := .ite (.looking rfl) (doQuit_kept fe)

theorem startSync_sends (trigger : SyncTrigger) (password : Text) (ho : app.overlay = none) :
    Ends may host (fun h app' => Sends host app.core h app'.core ∧ app'.overlay = none)
      (app.startSync trigger password) := by
  unfold startSync
  split
  · exact Ends.returned ⟨.stays, ho⟩
  · rename_i hro
    split
    · rename_i name v r hname hvault hregistry
      refine Ends.ask fun channel h hask => ?_
      obtain ⟨rfl, rfl⟩ := hask
      exact Ends.returned ⟨.spawned (Bool.eq_false_iff.2 hro) hvault hregistry, ho⟩
    · exact Ends.returned ⟨.stays, ho⟩

theorem cancelPendingSync_does (ho : app.overlay = none) (hin : app.inflight = none) (trigger : SyncTrigger) :
    Does host app host (app.cancelPendingSync trigger) := by
  cases trigger with
  | onLock => exact lockApp_does host hin
  | onQuit => exact ⟨.left .stays, guarded_of_none ho⟩
  | manual => exact .kept .refl (guarded_of_none ho)
  | onUnlock => exact .kept .refl (guarded_of_none ho)

theorem onSyncUnlockKey_does (ho : app.overlay = none) (hm : app.MayWrite) (input : PasswordInput)
    (pending : SyncTrigger) (key : Key) :
    Ends may host (fun h r => Does host app h (putBack r)) (app.onSyncUnlockKey input pending key) := by
  unfold onSyncUnlockKey
  split
  · exact Ends.returned (.kept (.withOverlay fun _ => hm) (guarded_of_none ho))
  · exact Ends.returned (cancelPendingSync_does host ho hm.2 pending)
  · exact Ends.bind (startSync_sends host pending _ ho) fun h app' hs =>
      Ends.returned ⟨.left hs.1, guarded_of_none hs.2⟩

theorem onConfirmQuitKey_does (hg : app.Guarded) (key : Key) :
    Ends may host (fun h r => Does host app h (putBack r)) (app.onConfirmQuitKey fe key) := by
  unfold onConfirmQuitKey onConfirmKey
  split
  · exact Ends.returned (.kept (doQuit_kept fe) hg)
  · exact Ends.returned (.kept (doQuit_kept fe) hg)
  · exact Ends.returned (.kept .refl hg)
  · exact Ends.returned (.kept .refl hg)
  · exact Ends.returned (.kept .refl hg)
  · exact Ends.returned (.kept (.looking rfl) hg)

/-! ## Settings -/

theorem expectRegistry_bind {α : Type} {r : Registry} (hr : app.registry = some r) (f : Registry → Ui α) :
    app.expectRegistry >>= f = f r := by
  unfold expectRegistry
  rw [hr]
  rfl

/-- A call of the registry changes its file at most. -/
theorem lift_ends {ε α : Type} (run : Program RegistryOp RegistryAnswer ε α) (vaultsToml : Option String) :
    Ends may { host with vaultsToml := vaultsToml } (fun h _ => ∃ vaultsToml,
      h = { host with vaultsToml := vaultsToml })
      (run.lift AppOp.registry fun _ a => a) := by
  induction run generalizing vaultsToml with
  | done a => exact Ends.returned ⟨_, rfl⟩
  | fail e => exact Ends.returned ⟨_, rfl⟩
  | ask op k ih =>
    refine ⟨trivial, fun a h hask => ?_⟩
    have changed : ∃ vaultsToml, h = { host with vaultsToml := vaultsToml } := by
      cases op with
      | readToString => exact ⟨_, hask.1⟩
      | writeAtomic body =>
        obtain rfl | ⟨-, rfl⟩ := hask
        · exact ⟨_, rfl⟩
        · exact ⟨_, rfl⟩
      | ensureExists => exact ⟨_, hask⟩
      | acquireExclusive => exact ⟨_, hask⟩
      | unlock => exact ⟨_, hask⟩
    obtain ⟨vaultsToml, rfl⟩ := changed
    exact ih a vaultsToml

theorem registryCall_ends {α : Type} (call : RegistryRun α) :
    Ends may host (fun h _ => ∃ vaultsToml, h = { host with vaultsToml := vaultsToml }) (registryCall call) :=
  lift_ends host call host.vaultsToml

theorem overrideOf_valid {registry : Registry} {name : String} {cfg : AutoLockConfig}
    (h : overrideOf registry name = some cfg) : cfg.validate = .ok () := by
  unfold overrideOf at h
  obtain ⟨secs, -, h⟩ := Option.bind_eq_some_iff.1 h
  dsimp only at h
  split at h
  · rename_i hvalid
    cases h
    exact hvalid
  · cases h

theorem armed_config (controller : AutoLockController) (now : Instant) (registry : Registry) (name : String) :
    (armed controller now (overrideOf registry name)).config = (overrideOf registry name).getD controller.config := by
  cases hcfg : overrideOf registry name with
  | none => rfl
  | some cfg =>
    unfold armed AutoLockController.new
    dsimp only
    rw [overrideOf_valid hcfg]
    rfl

theorem arm_ends (app : App Form) (now : Instant) (name : String) (r : Registry) (hname : app.selectedVault = some name)
    (hr : app.registry = some r) :
    Ends may host (fun h app' => h = host ∧
      ∃ controller, app' = { app with controller := controller } ∧
        controller.config = (overrideOf r name).getD app.controller.config)
      (app.armAutoLockForCurrentVault now) := by
  unfold armAutoLockForCurrentVault vaultAutoLockOverride
  rw [hname]
  dsimp only
  rw [expectRegistry_bind hr]
  exact Ends.returned ⟨rfl, _, rfl, armed_config _ now r name⟩

theorem currentAutoLockSeconds_ends (hr : app.registry.isSome) :
    Ends may host (fun h _ => h = host) app.currentAutoLockSeconds := by
  obtain ⟨r, hr⟩ := Option.isSome_iff_exists.1 hr
  unfold currentAutoLockSeconds
  split
  · exact Ends.returned rfl
  · rw [expectRegistry_bind hr]
    exact Ends.returned rfl

theorem configured_does {vaultsToml : Option String} {app' : App Form} {registry : Option Registry}
    {timeout : AutoLockConfig} (hro : app.readOnly = false) (hr : app.registry.isSome) (hr' : registry.isSome)
    (hc : app'.core = { app.core with registry := registry, timeout := timeout }) (hg : app'.Guarded) :
    Does host app { host with vaultsToml := vaultsToml } app' := by
  refine ⟨?_, hg⟩
  rw [hc]
  exact .configured hro hr hr'

theorem setAutoLock_does (hro : app.readOnly = false) (hr : app.registry.isSome) (hg : app.Guarded) (seconds : Nat) :
    Ends may host (Does host app) (app.setAutoLock fe seconds) := by
  obtain ⟨r, hreg⟩ := Option.isSome_iff_exists.1 hr
  unfold setAutoLock
  split
  · exact Ends.returned (.kept .refl hg)
  · rename_i name hname
    rw [expectRegistry_bind hreg]
    refine Ends.bind (registryCall_ends host _) fun h result hw => ?_
    obtain ⟨vaultsToml, rfl⟩ := hw
    cases result with
    | error e => exact Ends.returned (configured_does host hro hr hr rfl hg)
    | ok registry =>
      refine Ends.ask fun now h hask => ?_
      obtain rfl := hask
      refine Upholds.mono (fun h app' ha => ?_) (arm_ends _ _ now name registry hname rfl)
      obtain ⟨rfl, controller, rfl, -⟩ := ha
      exact configured_does host hro hr (Option.isSome_some (a := registry)) rfl hg

theorem cycleAutoLock_does (hro : app.readOnly = false) (hr : app.registry.isSome) (hg : app.Guarded) :
    Ends may host (Does host app) (app.cycleAutoLock fe) :=
  Ends.bind (currentAutoLockSeconds_ends host hr) fun h current hh => by
    obtain rfl := hh
    exact setAutoLock_does fe h hro hr hg _

theorem cycleTheme_steady : Steady may host app (app.cycleTheme fe) := by
  unfold cycleTheme
  refine Ends.ite (fun _ => Steady.returned .refl) fun _ => ?_
  refine Ends.bind (app.updateUserConfig_steady host _) fun h r hr => ?_
  obtain ⟨rfl, hk⟩ := hr
  obtain ⟨updated, app'⟩ := r
  exact Ends.ite (fun _ => Ends.returned ⟨rfl, hk.core, hk.writing⟩) fun _ => Ends.returned ⟨rfl, hk⟩

theorem openSyncConfig_kept (hm : app.MayWrite) : Kept app app.openSyncConfig := .ite .refl (.withOverlay fun _ => hm)

theorem activateSettingsRow_does (hin : app.inflight = none) (hr : app.registry.isSome) (hg : app.Guarded) :
    Ends may host (Does host app) (app.activateSettingsRow fe) := by
  have updated : ∀ update, Ends may host (Does host app) (do return (← app.updateUserConfig update).2) := fun update =>
    Ends.bind (app.updateUserConfig_steady host update) fun h r hr => by
      obtain ⟨rfl, hk⟩ := hr
      exact Ends.returned (.kept hk hg)
  unfold activateSettingsRow
  split
  · exact updated _
  · exact (cycleTheme_steady fe host).does hg
  · exact Ends.ite (fun _ => Ends.returned (.kept .refl hg)) fun hro =>
      cycleAutoLock_does fe host (Bool.eq_false_iff.2 hro) hr hg
  · exact updated _
  · exact updated _
  · exact Ends.ite (fun _ => Ends.returned (.kept .refl hg)) fun hro =>
      Ends.returned (.kept (openSyncConfig_kept ⟨Bool.eq_false_iff.2 hro, hin⟩) hg)
  · exact Ends.returned (.kept .refl hg)

theorem performConfigureSync_does (hro : app.readOnly = false) (hg : app.Guarded) (state : SyncConfigState) :
    Ends may host (fun h r => Does host app h r.2 ∧ (r.2.MayWrite ↔ app.MayWrite))
      (app.performConfigureSync fe state) := by
  unfold performConfigureSync
  refine Ends.ite (fun _ => Ends.returned ⟨.kept .refl hg, .rfl⟩) fun _ => ?_
  split
  · rename_i name container registry _ _ hreg
    have hr : app.registry.isSome := hreg ▸ rfl
    refine Ends.bind (lift_ends host _ host.vaultsToml) fun h result hw => ?_
    obtain ⟨vaultsToml, rfl⟩ := hw
    rcases result with e | ⟨result, registry'⟩
    · exact e.elim
    · have configured : Does host app { host with vaultsToml := vaultsToml } { app with registry := some registry' } :=
        configured_does host hro hr (Option.isSome_some (a := registry')) rfl hg
      cases result with
      | error e => exact Ends.returned ⟨configured, .rfl⟩
      | ok _ => exact Ends.returned ⟨configured, .rfl⟩
  · exact Ends.returned ⟨.kept .refl hg, .rfl⟩

theorem onSyncConfigKey_does (ho : app.overlay = none) (hm : app.MayWrite) (state : SyncConfigState) (key : Key) :
    Ends may host (fun h r => Does host app h (putBack r)) (app.onSyncConfigKey fe state key) := by
  have hg : app.Guarded := guarded_of_none ho
  have reopened : ∀ state, Does host app host (putBack (some (.syncConfig state), app)) := fun state =>
    .kept (.withOverlay fun _ => hm) hg
  unfold onSyncConfigKey
  refine Ends.ite (fun _ => Ends.returned (.kept .refl hg)) fun _ => ?_
  refine Ends.ite (fun _ => ?_) fun _ => ?_
  · refine Ends.bind (performConfigureSync_does fe host hm.1 hg state) fun h r hr => ?_
    obtain ⟨saved, app'⟩ := r
    cases saved with
    | true => exact Ends.returned hr.1
    | false => exact Ends.returned (hr.1.andKept (.withOverlay fun _ => hr.2.2 hm))
  · refine Ends.ite (fun _ => Ends.returned (reopened _)) fun _ => ?_
    exact Ends.ite (fun _ => Ends.returned (reopened _)) fun _ => Ends.returned (reopened _)

end App

end Falach.Tui
