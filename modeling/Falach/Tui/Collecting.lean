import Falach.Tui.Handling
/-!
# What a tick collects

The messages of a worker up to the last one: what comes back, or that nothing does. With the other events, this is all
that can happen.
-/

namespace Falach.Tui

open Keepass Program

variable {Form : Type} {may : Prop}

/-- Workers report activity and return results; a lost worker is what `SyncRuntime::drain` makes of its silence. -/
def Worker.Sound (w : Worker) : Prop := SyncMsg.workerLost ∉ w.queue

def Host.Sound (h : Host) : Prop := ∀ w ∈ h.workers, w.Sound

namespace App

variable (fe : Frontend Form) (host : Host) {app : App Form}

/-- What the messages of a channel make of the application that has drained it. -/
inductive Drains (c : Core) (queue : List SyncMsg) (finished : Bool) : Core → Prop where
  | waits : finished = false → Drains c queue finished c
  | locked {r : Registry} : finished = true →
      Drains c queue finished { c with phase := .lockScreen, vault := none, registry := some r, lockPending := false }
  | returned {result : SyncResult} : finished = true → .done result ∈ queue → c.lockPending = false →
      Drains c queue finished { c with vault := some result.vault, registry := some result.registry }

theorem Drains.cons {c c' : Core} {queue : List SyncMsg} {finished : Bool} (h : Drains c queue finished c')
    (msg : SyncMsg) : Drains c (msg :: queue) finished c' := by
  cases h with
  | waits hf => exact .waits hf
  | locked hf => exact .locked hf
  | returned hf hmem hlock => exact .returned hf (List.mem_cons_of_mem _ hmem) hlock

theorem reclampTreeSelection_kept : Kept app (app.reclampTreeSelection fe) := by
  unfold reclampTreeSelection
  dsimp only
  split
  · exact .withView _
  · exact (Kept.withView _).trans (.ite .refl (.withView _))

theorem retainMarks_kept : Kept app app.retainMarks := by
  unfold retainMarks
  exact .withView _

theorem retained_overlay (app : App Form) : (app.reclampTreeSelection fe).retainMarks.overlay = app.overlay := by
  have hreclamp : (app.reclampTreeSelection fe).overlay = app.overlay := by
    unfold reclampTreeSelection
    dsimp only
    split
    · rfl
    · split <;> rfl
  exact hreclamp

theorem lockApp_drains {c : Core} {vault : Option Vault} {r : Registry} {queue : List SyncMsg}
    (hc : app.core = { c with vault := vault, registry := some r, lockPending := false }) :
    Drains c queue true app.lockApp.core := by
  have hlocked : app.lockApp.core = { app.core with phase := .lockScreen, vault := none } := rfl
  rw [hlocked, hc]
  exact .locked rfl

theorem integrateSyncResult_drains (result : SyncResult) {queue : List SyncMsg} (hq : .done result ∈ queue) :
    Drains app.core queue true (app.integrateSyncResult fe result).core ∧
      ((app.integrateSyncResult fe result).writing = true → app.writing = true) := by
  unfold integrateSyncResult
  dsimp only
  split
  · generalize hback : ((({ app with registry := some result.registry } : App Form).withVault
        result.vault).reclampTreeSelection fe).retainMarks = back
    have hcore : back.core = { app.core with vault := some result.vault, registry := some result.registry } :=
      hback ▸ ((reclampTreeSelection_kept fe).trans retainMarks_kept).core
    have hwriting : back.writing = true → app.writing = true := by
      rw [writing, ← hback, retained_overlay]
      exact id
    have hpending : back.lockPending = app.lockPending := congrArg Core.lockPending hcore
    split
    · refine ⟨lockApp_drains (congrArg (fun c : Core => { c with lockPending := false }) hcore), writing_of_none rfl⟩
    · rename_i hlock
      have hlock : app.core.lockPending = false := hpending.symm.trans (Bool.eq_false_iff.2 hlock)
      have returned : Drains app.core queue true back.core := hcore ▸ .returned rfl hq hlock
      cases result.trigger with
      | onLock => exact ⟨lockApp_drains (hcore.trans (by rw [← hlock])), writing_of_none rfl⟩
      | onQuit => exact ⟨returned, hwriting⟩
      | manual => exact ⟨returned, hwriting⟩
      | onUnlock => exact ⟨returned, hwriting⟩
  · exact ⟨.locked rfl, writing_of_none rfl⟩

/-- The registry is only read. -/
theorem load_ends : Ends may host (fun h _ => h = host) (registryCall (VaultRegistry.load fe.toml)) := by
  refine ⟨trivial, fun contents h hask => ?_⟩
  obtain rfl := hask.1
  cases contents with
  | error e => exact Ends.returned rfl
  | ok contents =>
    change Ends may h _ (Program.lift AppOp.registry _ (ofExcept (VaultRegistry.fromContents fe.toml contents)))
    cases VaultRegistry.fromContents fe.toml contents with
    | error e => exact Ends.returned rfl
    | ok registry => exact Ends.returned rfl

theorem recoverFromLostWorker_drains (queue : List SyncMsg) :
    Ends may host (fun h app' => h = host ∧ Drains app.core queue true app'.core ∧ app'.overlay = none)
      (app.recoverFromLostWorker fe) :=
  Ends.bind (load_ends fe host) fun h loaded hh => by
    obtain rfl := hh
    exact Ends.returned ⟨rfl, .locked rfl, rfl⟩

/-- By the messages in the channel: activity is noted, the last message decides. -/
theorem onSyncMessages_drains (now : Instant) (disconnected : Bool) (queue : List SyncMsg)
    (hsound : .workerLost ∉ queue) :
    Ends may host (fun h app' => h = host ∧ Drains app.core queue (drained disconnected queue).2 app'.core ∧
        (app'.writing = true → app.writing = true))
      (onSyncMessages fe now app (drained disconnected queue).1) := by
  induction queue generalizing app with
  | nil =>
    cases disconnected with
    | false => exact Ends.returned ⟨rfl, .waits rfl, id⟩
    | true =>
      refine Ends.bind (recoverFromLostWorker_drains fe host []) fun h app' hr => ?_
      obtain ⟨rfl, hdrains, ho⟩ := hr
      exact Ends.returned ⟨rfl, hdrains, writing_of_none ho⟩
  | cons msg rest ih =>
    have hrest : .workerLost ∉ rest := fun hmem => hsound (List.mem_cons_of_mem _ hmem)
    cases msg with
    | done result =>
      have hmem : SyncMsg.done result ∈ .done result :: rest := List.mem_cons_self
      exact Ends.returned ⟨rfl, integrateSyncResult_drains fe result hmem⟩
    | workerLost => exact absurd List.mem_cons_self hsound
    | activity =>
      have hcore : ({ app with controller := app.controller.registerActivity now } : App Form).core = app.core := by
        unfold core
        rw [AutoLockController.registerActivity_config]
      change Ends may host _ (onSyncMessages fe now { app with controller := app.controller.registerActivity now }
        (drained disconnected rest).1)
      refine Upholds.mono (fun h app' hr => ?_) (ih hrest)
      obtain ⟨rfl, hdrains, hw⟩ := hr
      exact ⟨rfl, (hcore ▸ hdrains).cons .activity, hw⟩

theorem idle_kept_or_locked (now : Instant) (hin : app.inflight = none) :
    Kept app (app.idle now) ∨ (app.vault.isSome ∧
      (app.idle now).core = { app.core with phase := .lockScreen, vault := none } ∧
      (app.idle now).overlay = none) := by
  have hcore : ({ app with controller := (app.controller.tick now).2 } : App Form).core = app.core := by
    unfold core
    rw [AutoLockController.tick_config]
  unfold idle
  dsimp only
  split
  · rename_i hvault
    split
    · exact .inr ⟨hvault, congrArg (fun c : Core => { c with phase := .lockScreen, vault := none }) hcore, rfl⟩
    · exact .inl ⟨hcore, .inl⟩
  · rw [isSyncing, hin]
    exact .inl .refl

/-- While a worker has the vault, the idle clock only asks for a lock. -/
theorem idle_syncing (now : Instant) {i : Nat} (hin : app.inflight = some i) (hvault : app.vault = none) :
    app.idle now = { app with
      controller := (app.controller.tick now).2
      lockPending := app.lockPending || (app.controller.tick now).1 = .locked } := by
  have haway : ¬ app.vault.isSome = true := by rw [hvault]; exact nofun
  have hsync : app.isSyncing = true := by rw [isSyncing, hin]; rfl
  unfold idle
  dsimp only
  rw [if_neg haway, if_pos hsync]

/-- The worker goes on. -/
theorem pending_does (now : Instant) {app' : App Form} {i : Nat} {w : Worker} (hin : app.inflight = some i)
    (hvault : app.vault = none) (hw : host.workers[i]? = some w)
    (hfinished : (drained w.disconnected w.queue).2 = false)
    (hdrains : Drains app.core w.queue (drained w.disconnected w.queue).2 app'.core) (hquiet : app'.writing ≠ true) :
    Does host app (host.withWorker i w.emptied) (app'.idle now) := by
  have hcore : app'.core = app.core := by
    generalize app'.core = c at hdrains
    cases hdrains with
    | waits _ => rfl
    | locked hf => rw [hfinished] at hf; cases hf
    | returned hf _ _ => rw [hfinished] at hf; cases hf
  have hin' : app'.inflight = some i := (congrArg Core.inflight hcore).trans hin
  have hvault' : app'.vault = none := (congrArg Core.vault hcore).trans hvault
  rw [idle_syncing now hin' hvault']
  refine ⟨?_, fun hw => absurd hw hquiet⟩
  have hidle : ({ app' with
      controller := (app'.controller.tick now).2
      lockPending := app'.lockPending || (app'.controller.tick now).1 = .locked } : App Form).core =
      { app.core with lockPending := app.lockPending || (app'.controller.tick now).1 = .locked } := by
    have hlock : app'.lockPending = app.lockPending := congrArg Core.lockPending hcore
    rw [← hcore, ← hlock]
    unfold core
    rw [AutoLockController.tick_config]
  rw [hidle]
  exact .pending hin hw hfinished fun hlock => by
    rw [show app.lockPending = true from hlock]
    rfl

/-- The worker has ended, and its sync with it. -/
theorem collected_does (now : Instant) {app' : App Form} {i : Nat} {w : Worker} (hin : app.inflight = some i)
    (hw : host.workers[i]? = some w) (hfinished : (drained w.disconnected w.queue).2 = true)
    (hdrains : Drains { app.core with inflight := none } w.queue (drained w.disconnected w.queue).2 app'.core)
    (hquiet : app'.writing ≠ true) :
    Does host app (host.withWorker i w.emptied) (app'.idle now) ∧ (app'.idle now).inflight = none := by
  generalize hcore : app'.core = c at hdrains
  cases hdrains with
  | waits hf => rw [hfinished] at hf; cases hf
  | locked _ =>
    have hin' : app'.inflight = none := congrArg Core.inflight hcore
    have hvault' : app'.vault = none := congrArg Core.vault hcore
    rcases idle_kept_or_locked now hin' with hk | ⟨hvault, -, -⟩
    · have hcore := hk.core.trans hcore
      exact ⟨⟨hcore ▸ .collected hin hw hfinished, hk.guarded fun hw => absurd hw hquiet⟩, congrArg Core.inflight hcore⟩
    · rw [hvault'] at hvault
      cases hvault
  | @returned result _ hmem hlock =>
    have hin' : app'.inflight = none := congrArg Core.inflight hcore
    rcases idle_kept_or_locked now hin' with hk | ⟨-, hlocked, ho⟩
    · have hcore := hk.core.trans hcore
      exact ⟨⟨hcore ▸ .handedBack hin hw hmem hlock, hk.guarded fun hw => absurd hw hquiet⟩,
        congrArg Core.inflight hcore⟩
    · rw [hcore] at hlocked
      refine ⟨⟨?_, guarded_of_none ho⟩, congrArg Core.inflight hlocked⟩
      rw [hlocked]
      have collected := Effect.collected (c := app.core) (r := result.registry) hin hw hfinished
      rw [← (hlock : app.core.lockPending = false)] at collected
      exact collected

/-- What is drained is what the channel of the worker has; after the last message no sync is in flight. -/
theorem drain_ends {i : Nat} (hin : app.inflight = some i) :
    Ends may host (fun h r => ∃ w, host.workers[i]? = some w ∧ h = host.withWorker i w.emptied ∧
        r.1 = (drained w.disconnected w.queue).1 ∧
        r.2 = if (drained w.disconnected w.queue).2 then { app with inflight := none } else app)
      app.drain := by
  unfold drain
  rw [hin]
  refine Ends.ask fun received h hask => ?_
  obtain ⟨w, hw, rfl, rfl⟩ := hask
  exact Ends.returned ⟨w, hw, rfl, rfl, rfl⟩

theorem tick_home (hg : app.Guarded) (now : Instant) (hin : app.inflight = none) :
    Ends may host (Does host app) (app.tick fe now) := by
  have hdrain : app.drain = return ([], app) := by
    unfold drain
    rw [hin]
  unfold tick
  rw [hdrain]
  refine Ends.returned ?_
  rcases idle_kept_or_locked now hin with hk | ⟨-, hcore, ho⟩
  · exact .kept hk hg
  · exact ⟨hcore ▸ .locked hin, guarded_of_none ho⟩

/-- While a sync is in flight; a tick that finds its worker ended ends it. -/
theorem tick_away (hv : app.core.Valid) (hg : app.Guarded) (hs : host.Sound) (now : Instant) {i : Nat}
    (hin : app.inflight = some i) :
    Ends may host (fun h app' => Does host app h app' ∧ ∃ w, host.workers[i]? = some w ∧
        ((drained w.disconnected w.queue).2 = true → app'.inflight = none))
      (app.tick fe now) := by
  obtain ⟨-, hvault, -⟩ := hv.away (by rw [show app.core.inflight = some i from hin]; exact nofun)
  have hwriting : app.writing ≠ true := fun hw => by
    have := (hg hw).2
    rw [hin] at this
    cases this
  refine Ends.bind (drain_ends host hin) fun h r hr => ?_
  obtain ⟨messages, drainedApp⟩ := r
  obtain ⟨w, hw, rfl, hmessages, happ⟩ := hr
  obtain rfl : messages = _ := hmessages
  have hsound : SyncMsg.workerLost ∉ w.queue := hs w (List.mem_of_getElem? hw)
  refine Ends.bind (onSyncMessages_drains fe _ now _ _ hsound) fun h app' hr => Ends.returned ?_
  obtain ⟨rfl, hdrains, hkept⟩ := hr
  split at happ
  · rename_i hfinished
    obtain rfl : drainedApp = _ := happ
    have hquiet : app'.writing ≠ true := fun hw => hwriting (hkept hw)
    have collected := collected_does host now hin hw hfinished hdrains hquiet
    exact ⟨collected.1, w, hw, fun _ => collected.2⟩
  · rename_i hfinished
    obtain rfl : drainedApp = _ := happ
    have hquiet : app'.writing ≠ true := fun hw => hwriting (hkept hw)
    exact ⟨pending_does host now hin hvault hw (Bool.eq_false_iff.2 hfinished) hdrains hquiet, w, hw,
      fun h => absurd h hfinished⟩

theorem tick_does (hv : app.core.Valid) (hg : app.Guarded) (hs : host.Sound) (now : Instant) :
    Ends may host (Does host app) (app.tick fe now) := by
  cases hin : app.inflight with
  | none => exact tick_home fe host hg now hin
  | some i => exact Upholds.mono (fun _ _ hd => hd.1) (tick_away fe host hv hg hs now hin)

/-! ## Every event -/

/-- From a valid state, an event does one of the things above; it never asks for the registry while it is away, and
where nothing may be written nothing panics. -/
theorem on_does (hmay : app.readOnly = false → may) (hv : app.core.Valid) (hg : app.Guarded) (hs : host.Sound)
    (event : Event) :
    Ends may host (Does host app) (app.on fe event) := by
  have registered : ∀ now, Kept app { app with controller := app.controller.registerActivity now } := fun now => by
    refine ⟨?_, .inl⟩
    unfold core
    rw [AutoLockController.registerActivity_config]
  cases event with
  | tick now => exact tick_does fe host hv hg hs now
  | render viewport => exact (render_steady host hv viewport).does hg
  | key key =>
    refine Ends.ask fun now h hask => ?_
    obtain rfl := hask
    have hk : Kept app (if key.press then { app with controller := app.controller.registerActivity now } else app) :=
      .ite (registered now) .refl
    have hro := congrArg Core.readOnly hk.core
    exact hk.does (handleKey_does fe h (fun hro' => hmay (hro.symm.trans hro')) (hk.core.symm ▸ hv) (hk.guarded hg) key)
  | mouse event =>
    refine Ends.ask fun now h hask => ?_
    obtain rfl := hask
    have hk := registered now
    exact hk.does (handleMouse_does fe h (hk.core.symm ▸ hv) (hk.guarded hg) event)
  | other => exact Ends.returned (.kept .refl hg)

end App

end Falach.Tui
