import Falach.Tui.Reachable
/-!
# Who has the vault

An unlocked vault and the registry are with the application, or with the one worker that syncs: it works on them, or has
sent them back. A worker that panics takes them with it, and the next tick locks.
-/

namespace Falach.Tui

open Keepass Program

variable {Form : Type} {fe : Frontend Form}

/-! ## Channels -/

/-- The last message of a worker. -/
def SyncMsg.terminal : SyncMsg → Bool
  | .activity => false
  | .done _ | .workerLost => true

/-- Nothing but activity has been sent. -/
def Busy (queue : List SyncMsg) : Prop := ∀ msg ∈ queue, msg = .activity

theorem Busy.append {queue : List SyncMsg} (h : Busy queue) : Busy (queue ++ [.activity]) := fun msg hmem =>
  (List.mem_append.1 hmem).elim (h msg) List.mem_singleton.1

theorem Busy.no_done {queue : List SyncMsg} (h : Busy queue) (result : SyncResult) : .done result ∉ queue :=
  fun hmem => by
  cases h _ hmem

theorem Busy.countP {queue : List SyncMsg} (h : Busy queue) : queue.countP SyncMsg.terminal = 0 := by
  rw [List.countP_eq_zero]
  intro msg hmem
  rw [h msg hmem]
  exact nofun

/-- A channel without a last message is drained of its activity, and found lost if its sender is gone. -/
theorem drained_busy {queue : List SyncMsg} (h : Busy queue) (disconnected : Bool) :
    App.drained disconnected queue = (queue ++ if disconnected then [.workerLost] else [], disconnected) := by
  induction queue with
  | nil => cases disconnected <;> rfl
  | cons msg rest ih =>
    have hmsg := h msg List.mem_cons_self
    subst hmsg
    unfold App.drained
    rw [ih fun msg hmem => h msg (List.mem_cons_of_mem _ hmem)]
    rfl

/-- A channel is drained up to the result. -/
theorem drained_done {queue : List SyncMsg} (h : Busy queue) (disconnected : Bool) (result : SyncResult) :
    App.drained disconnected (queue ++ [.done result]) = (queue ++ [.done result], true) := by
  induction queue with
  | nil => rfl
  | cons msg rest ih =>
    have hmsg := h msg List.mem_cons_self
    subst hmsg
    have := ih fun msg hmem => h msg (List.mem_cons_of_mem _ hmem)
    rw [List.cons_append, App.drained, this]
    intro _ h
    cases h

/-! ## Workers -/

namespace Worker

/-- How many last messages have been drained. -/
def terminals (w : Worker) : Nat := w.drained.countP SyncMsg.terminal

/-- The vault and the registry are with the worker, or on their way back from it. -/
def Holds (w : Worker) : Prop := (∃ v r, w.job = .syncing v r) ∨ ∃ result, .done result ∈ w.queue

/-- A worker whose last message has not been drained: it works, or has returned a result or panicked. -/
inductive Open (w : Worker) : Prop where
  | syncing {v : Vault} {r : Registry} : w.job = .syncing v r → Busy w.queue → w.terminals = 0 → Open w
  | returned {queue : List SyncMsg} {result : SyncResult} : w.job = .returned → Busy queue →
      w.queue = queue ++ [.done result] → w.terminals = 0 → Open w
  | panicked : w.job = .panicked → Busy w.queue → w.terminals = 0 → Open w

/-- A worker that has ended and whose channel was drained. -/
structure Collected (w : Worker) : Prop where
  ended : ∀ v r, w.job ≠ .syncing v r
  queue : w.queue = []
  terminals : w.terminals = 1

variable {w : Worker}

theorem Open.terminals (h : w.Open) : w.terminals = 0 := by
  cases h with
  | syncing _ _ h => exact h
  | returned _ _ _ h => exact h
  | panicked _ _ h => exact h

theorem Collected.not_holds (h : w.Collected) : ¬ w.Holds := by
  rintro (⟨v, r, hjob⟩ | ⟨result, hmem⟩)
  · exact h.ended v r hjob
  · rw [h.queue] at hmem
    cases hmem

theorem terminals_emptied (w : Worker) :
    w.emptied.terminals = w.terminals + (App.drained w.disconnected w.queue).1.countP SyncMsg.terminal :=
  List.countP_append

/-- While it goes on, draining takes its activity. -/
theorem Open.emptied (h : w.Open) (hf : (App.drained w.disconnected w.queue).2 = false) : w.emptied.Open := by
  cases h with
  | @syncing v r hjob hbusy hterm =>
    have hdisc : w.disconnected = false := by rw [disconnected, hjob]
    refine .syncing hjob (fun _ hmem => by cases hmem) ?_
    rw [terminals_emptied, hterm, drained_busy hbusy, hdisc]
    simpa using hbusy.countP
  | returned hjob hbusy hqueue hterm =>
    rw [hqueue, drained_done hbusy] at hf
    cases hf
  | panicked hjob hbusy hterm =>
    rw [drained_busy hbusy, disconnected, hjob] at hf
    cases hf

/-- Once it has ended, draining takes its last message, which is the only one. -/
theorem Open.collected (h : w.Open) (hf : (App.drained w.disconnected w.queue).2 = true) : w.emptied.Collected := by
  cases h with
  | @syncing v r hjob hbusy hterm =>
    rw [drained_busy hbusy, disconnected, hjob] at hf
    cases hf
  | @returned queue result hjob hbusy hqueue hterm =>
    have hended : ∀ v r, w.job ≠ .syncing v r := fun v r h => by rw [hjob] at h; cases h
    refine ⟨hended, rfl, ?_⟩
    rw [terminals_emptied, hterm, hqueue, drained_done hbusy, List.countP_append, hbusy.countP]
    rfl
  | panicked hjob hbusy hterm =>
    have hended : ∀ v r, w.job ≠ .syncing v r := fun v r h => by rw [hjob] at h; cases h
    have hdisc : w.disconnected = true := by rw [disconnected, hjob]
    refine ⟨hended, rfl, ?_⟩
    rw [terminals_emptied, hterm, drained_busy hbusy, hdisc]
    dsimp only
    rw [List.countP_append, hbusy.countP]
    rfl

/-- Draining ends a sync exactly if its worker has ended. -/
theorem Open.finished (h : w.Open) : (App.drained w.disconnected w.queue).2 = true ↔ ∀ v r, w.job ≠ .syncing v r := by
  constructor
  · exact fun hf => (h.collected hf).ended
  · intro hended
    by_contra hf
    cases h with
    | syncing hjob _ _ => exact hended _ _ hjob
    | returned hjob hbusy hqueue _ => rw [hqueue, drained_done hbusy] at hf; exact hf rfl
    | panicked hjob hbusy _ => rw [drained_busy hbusy, disconnected, hjob] at hf; exact hf rfl

theorem Open.of_done (h : w.Open) {result : SyncResult} (hmem : .done result ∈ w.queue) :
    (App.drained w.disconnected w.queue).2 = true := by
  refine h.finished.2 fun v r hjob => ?_
  cases h with
  | syncing _ hbusy _ => exact hbusy.no_done result hmem
  | returned hjob' _ _ _ => rw [hjob] at hjob'; cases hjob'
  | panicked _ hbusy _ => exact hbusy.no_done result hmem

end Worker

/-! ## All workers -/

/-- The worker of the sync in flight is open; every other one was collected. -/
structure Custody (h : Host) (c : Core) : Prop where
  inflight : ∀ i, c.inflight = some i → ∃ w, h.workers[i]? = some w ∧ w.Open
  collected : ∀ i w, h.workers[i]? = some w → c.inflight ≠ some i → w.Collected

namespace Custody

variable {h h' : Host} {c c' : Core}

/-- Of a worker that is not collected, the sync is in flight. -/
theorem inflight_of (hc : Custody h c) {i : Nat} {w : Worker} (hw : h.workers[i]? = some w) (hn : ¬ w.Collected) :
    c.inflight = some i ∧ w.Open := by
  have hin : c.inflight = some i := by
    by_contra hin
    exact hn (hc.collected i w hw hin)
  obtain ⟨w', hw', hopen⟩ := hc.inflight i hin
  cases hw.symm.trans hw'
  exact ⟨hin, hopen⟩

/-- The worker of the sync in flight takes a step. -/
theorem set (hc : Custody h c) {i : Nat} {w w' : Worker} (hw : h.workers[i]? = some w) (hin : c.inflight = some i)
    (ho : w'.Open) : Custody (h.withWorker i w') c := by
  obtain ⟨hlt, -⟩ := List.getElem?_eq_some_iff.1 hw
  refine ⟨fun j hj => ?_, fun j u hu hj => ?_⟩
  · cases hin.symm.trans hj
    exact ⟨w', by rw [Host.withWorker, List.getElem?_set_self hlt], ho⟩
  · have hij : i ≠ j := fun h => hj (h ▸ hin)
    rw [Host.withWorker, List.getElem?_set_ne hij] at hu
    exact hc.collected j u hu hj

/-- The sync in flight ends, and its worker is collected. -/
theorem ends (hc : Custody h c) {i : Nat} {w w' : Worker} (hw : h.workers[i]? = some w) (hin : c.inflight = some i)
    (hcollected : w'.Collected) (hc' : c'.inflight = none) : Custody (h.withWorker i w') c' := by
  obtain ⟨hlt, -⟩ := List.getElem?_eq_some_iff.1 hw
  refine ⟨fun j hj => ?_, fun j u hu _ => ?_⟩
  · rw [hc'] at hj
    cases hj
  · by_cases hij : i = j
    · subst hij
      rw [Host.withWorker, List.getElem?_set_self hlt] at hu
      cases hu
      exact hcollected
    · rw [Host.withWorker, List.getElem?_set_ne hij] at hu
      exact hc.collected j u hu fun hj => hij (Option.some.inj (hin.symm.trans hj))

theorem sends (hs : Sends h c h' c') (hv : c.Valid) (hc : Custody h c) : Custody h' c' := by
  cases hs with
  | stays => exact hc
  | @spawned v r trigger _ hvault _ =>
    have hin : c.inflight = none := (hv.of_vault (by rw [hvault]; rfl)).1
    refine ⟨fun i hi => ?_, fun i w hw hi => ?_⟩
    · cases hi
      exact ⟨_, List.getElem?_concat_length, .syncing rfl (fun _ hmem => by cases hmem) rfl⟩
    · have hlt : i < h.workers.length := by
        have hne : i ≠ h.workers.length := fun heq => hi (by rw [heq])
        have hle := (List.getElem?_eq_some_iff.1 hw).1
        rw [List.length_append, List.length_singleton] at hle
        omega
      rw [List.getElem?_append_left hlt] at hw
      exact hc.collected i w hw (by rw [hin]; exact nofun)

theorem effect (he : Effect h c h' c') (hv : c.Valid) (hc : Custody h c) : Custody h' c' := by
  have held : ∀ {i w}, c.inflight = some i → h.workers[i]? = some w → w.Open := fun hin hw => by
    obtain ⟨w', hw', hopen⟩ := hc.inflight _ hin
    cases hw.symm.trans hw'
    exact hopen
  cases he with
  | left hs => exact sends hs hv hc
  | moved _ _ => exact ⟨hc.inflight, hc.collected⟩
  | unlocked hp hr hs =>
    have hin := hv.inflight_none (by rw [hp]; exact nofun)
    exact sends hs ⟨fun _ => ⟨(hv.home hin).1, iff_of_true rfl rfl, (hv.home hin).2.2⟩, fun hin' => absurd hin hin'⟩
      ⟨hc.inflight, hc.collected⟩
  | edited _ _ _ => exact ⟨hc.inflight, hc.collected⟩
  | configured _ _ _ => exact ⟨hc.inflight, hc.collected⟩
  | locked _ => exact ⟨hc.inflight, hc.collected⟩
  | deferred _ => exact ⟨hc.inflight, hc.collected⟩
  | pending hin hw hf _ =>
    have hset := hc.set hw hin ((held hin hw).emptied hf)
    exact ⟨hset.inflight, hset.collected⟩
  | collected hin hw hf => exact hc.ends hw hin ((held hin hw).collected hf) rfl
  | handedBack hin hw hmem _ => exact hc.ends hw hin ((held hin hw).collected ((held hin hw).of_done hmem)) rfl

theorem work (hw : h.Work h') (hc : Custody h c) : Custody h' c := by
  have open_of : ∀ {i w v r}, h.workers[i]? = some w → w.job = .syncing v r →
      c.inflight = some i ∧ Busy w.queue ∧ w.terminals = 0 := fun hi hjob => by
    obtain ⟨hin, hopen⟩ := hc.inflight_of hi fun hcollected => hcollected.ended _ _ hjob
    cases hopen with
    | syncing _ hbusy hterm => exact ⟨hin, hbusy, hterm⟩
    | returned hjob' _ _ _ => rw [hjob] at hjob'; cases hjob'
    | panicked hjob' _ _ => rw [hjob] at hjob'; cases hjob'
  cases hw with
  | @sync i w v v' r r' files remote vaultsToml hi hjob _ =>
    obtain ⟨hin, hbusy, hterm⟩ := open_of hi hjob
    have hopen : ({ w with job := .syncing v' r' } : Worker).Open := .syncing rfl hbusy hterm
    have hset := hc.set hi hin hopen
    exact ⟨hset.inflight, hset.collected⟩
  | activity hi hjob =>
    obtain ⟨hin, hbusy, hterm⟩ := open_of hi hjob
    exact hc.set hi hin (.syncing hjob hbusy.append hterm)
  | done outcome hi hjob =>
    obtain ⟨hin, hbusy, hterm⟩ := open_of hi hjob
    exact hc.set hi hin (.returned rfl hbusy rfl hterm)
  | panic hi hjob =>
    obtain ⟨hin, hbusy, hterm⟩ := open_of hi hjob
    exact hc.set hi hin (.panicked rfl hbusy hterm)

end Custody

/-! ## A step while a sync is in flight -/

section

variable {h h' : Host} {c c' : Core}

theorem Host.Work.length (hw : h.Work h') : h'.workers.length = h.workers.length := by
  cases hw with
  | sync _ _ _ => exact List.length_set
  | activity _ _ => exact List.length_set
  | done _ _ _ => exact List.length_set
  | panic _ _ => exact List.length_set

/-- No vault is unlocked, and the registry is back. -/
structure Core.Locked (c : Core) : Prop where
  phase : c.phase = .lockScreen
  vault : c.vault = none
  registry : c.registry.isSome
  inflight : c.inflight = none
  lockPending : c.lockPending = false

/-- A sync ends with a lock, unless its worker has sent the vault back. -/
theorem Effect.ends (he : Effect h c h' c') {i : Nat} (hin : c.inflight = some i) (hin' : c'.inflight = none) :
    c'.Locked ∨ ∃ w result, h.workers[i]? = some w ∧ .done result ∈ w.queue := by
  have same : c.inflight = none → c'.Locked ∨ ∃ w result, h.workers[i]? = some w ∧ .done result ∈ w.queue := fun h => by
    rw [hin] at h
    cases h
  cases he with
  | left hs =>
    cases hs with
    | stays => exact same hin'
    | spawned _ _ _ => cases hin'
  | moved _ _ => exact same hin'
  | unlocked _ _ hs =>
    cases hs with
    | stays => exact same hin'
    | spawned _ _ _ => cases hin'
  | edited _ _ _ => exact same hin'
  | configured _ _ _ => exact same hin'
  | locked _ => exact same hin'
  | deferred _ => exact same hin'
  | pending _ _ _ _ => exact same hin'
  | collected _ _ _ => exact .inl ⟨rfl, rfl, rfl, rfl, rfl⟩
  | handedBack hin'' hw hmem _ =>
    cases hin.symm.trans hin''
    exact .inr ⟨_, _, hw, hmem⟩

/-- No other worker is started, and a lock that was asked for stays so until the sync ends, which locks. -/
theorem Effect.away (he : Effect h c h' c') (hv : c.Valid) {i : Nat} (hin : c.inflight = some i) :
    h'.workers.length = h.workers.length ∧
      (c.lockPending = true → c'.Locked ∨ c'.lockPending = true ∧ c'.inflight = some i) := by
  obtain ⟨hp, hvault, hregistry⟩ := hv.away (by rw [hin]; exact nofun)
  have same : c.lockPending = true → c.lockPending = true ∧ c.inflight = some i := fun h => ⟨h, hin⟩
  cases he with
  | left hs =>
    cases hs with
    | stays => exact ⟨rfl, fun h => .inr (same h)⟩
    | spawned _ hsome _ => rw [hvault] at hsome; cases hsome
  | moved hp' _ => exact absurd hp hp'
  | unlocked hprompt _ _ => rw [hp] at hprompt; cases hprompt
  | edited _ _ _ => exact ⟨rfl, fun h => .inr (same h)⟩
  | configured _ _ _ => exact ⟨rfl, fun h => .inr (same h)⟩
  | locked hnone => rw [hin] at hnone; cases hnone
  | deferred _ => exact ⟨rfl, fun _ => .inr ⟨rfl, hin⟩⟩
  | pending _ _ _ hlock => exact ⟨List.length_set, fun h => .inr ⟨hlock h, hin⟩⟩
  | collected _ _ _ => exact ⟨List.length_set, fun _ => .inl ⟨rfl, rfl, rfl, rfl, rfl⟩⟩
  | handedBack _ _ _ hlock => exact ⟨List.length_set, fun h => by rw [hlock] at h; cases h⟩

end

/-! ## Sessions -/

namespace Session

/-- The worker at a place has the vault and the registry. -/
def WorkerHolds (s : Session Form) (i : Nat) : Prop := ∃ w, s.host.workers[i]? = some w ∧ w.Holds

/-- The application or exactly one worker has the vault and the registry, and nobody else has either. -/
def OneHolder (s : Session Form) : Prop :=
  (s.app.vault.isSome ∧ s.app.registry.isSome ∧ ∀ i, ¬ s.WorkerHolds i) ∨
    (s.app.vault = none ∧ s.app.registry = none ∧ ∃! i, s.WorkerHolds i)

/-- The worker of the sync in flight has panicked, and nobody has noticed yet. -/
def Lost (s : Session Form) : Prop := ∃ i w, s.app.inflight = some i ∧ s.host.workers[i]? = some w ∧ w.job = .panicked

/-- Of the sync in flight, the thread has ended. -/
def Ended (s : Session Form) : Prop := ∃ i w, s.app.inflight = some i ∧ s.host.workers[i]? = some w ∧
  ∀ v r, w.job ≠ .syncing v r

/-- What syncs in the background keep to. -/
structure InOrder (fe : Frontend Form) (s : Session Form) : Prop where
  /-- An unlocked vault has one holder, until its worker panics. -/
  holder : s.app.phase = .workspace → s.OneHolder ∨ s.Lost
  /-- The registry is never asked for while it is away. -/
  registry : ∀ event host, ¬ s.Handles fe event host (.failed .registryAway)
  /-- Of each worker one last message is drained, which ends the sync. -/
  terminal : ∀ i w, s.host.workers[i]? = some w → w.terminals = if s.app.inflight = some i then 0 else 1
  /-- A sync that has ended is over after the next tick. -/
  ends : s.Ended → ∀ now host app, s.Handles fe (.tick now) host (.returned app) → app.inflight = none
  /-- A lost worker is noticed there, and the application locks, with the registry read again. -/
  lost : s.Lost → ∀ now host app, s.Handles fe (.tick now) host (.returned app) → app.core.Locked
  /-- While a sync is in flight no other one is started. -/
  alone : s.app.inflight.isSome → ∀ s', Step fe s s' → s'.host.workers.length = s.host.workers.length
  /-- A lock that the user asks for meanwhile is put off. -/
  requested : s.app.inflight.isSome → ∀ count,
    s.app.executeCommand fe .lockNow count = pure { s.app with lockPending := true }
  /-- So is one that the idle clock asks for. -/
  fired : s.app.inflight.isSome → ∀ now, (s.app.controller.tick now).1 = .locked → (s.app.idle now).lockPending = true
  /-- It stays put off while the sync is in flight, and the end of the sync locks. -/
  applied : s.app.lockPending = true → ∀ s', Step fe s s' →
    s'.app.core.Locked ∨ s'.app.lockPending = true ∧ s'.app.inflight = s.app.inflight

variable {start s : Session Form}

theorem Starts.custody (hs : start.Starts) (hr : Reaches fe start s) : Custody s.host s.app.core := by
  refine hs.invariant ⟨fun i hi => ?_, fun i w hw => ?_⟩ (fun hv hc he => hc.effect he hv) (fun _ hc hw =>
    hc.work hw) hr
  · obtain ⟨launch, hnew⟩ := hs.app
    rw [show start.app.core.inflight = none from (App.fresh_of_new hnew).inflight] at hi
    cases hi
  · rw [hs.workers] at hw
    cases hw

theorem holder_of (hv : s.Valid) (hc : Custody s.host s.app.core) (hp : s.app.phase = .workspace) :
    s.OneHolder ∨ s.Lost := by
  have others : ∀ {i}, s.app.core.inflight ≠ some i → ¬ s.WorkerHolds i := by
    rintro i hin ⟨w, hw, hholds⟩
    exact (hc.collected i w hw hin).not_holds hholds
  cases hin : s.app.core.inflight with
  | none =>
    obtain ⟨hr, hvault, -⟩ := hv.core.home hin
    exact .inl (.inl ⟨hvault.2 hp, hr, fun i => others (by rw [hin]; exact nofun)⟩)
  | some i =>
    obtain ⟨-, hvault, hr⟩ := hv.core.away (by rw [hin]; exact nofun)
    obtain ⟨w, hw, hopen⟩ := hc.inflight i hin
    have one : w.Holds → s.OneHolder := fun hholds => by
      refine .inr ⟨hvault, hr, i, ⟨w, hw, hholds⟩, fun j hj => ?_⟩
      by_contra hji
      exact others (fun hj' => hji (Option.some.inj (hj'.symm.trans hin))) hj
    cases hopen with
    | syncing hjob _ _ => exact .inl (one (.inl ⟨_, _, hjob⟩))
    | @returned _ result _ _ hqueue _ =>
      have hdone : .done result ∈ w.queue := by
        rw [hqueue]
        exact List.mem_append_right _ List.mem_cons_self
      exact .inl (one (.inr ⟨result, hdone⟩))
    | panicked hjob _ _ => exact .inr ⟨i, w, hin, hw, hjob⟩

/-- What a tick does while a sync is in flight. -/
theorem tick_of (hv : s.Valid) (hc : Custody s.host s.app.core) {i : Nat} {w : Worker} (hin : s.app.inflight = some i)
    (hw : s.host.workers[i]? = some w) {now : Instant} {host : Host} {app : App Form}
    (h : s.Handles fe (.tick now) host (.returned app)) :
    Effect s.host s.app.core host app.core ∧ w.Open ∧ ((∀ v r, w.job ≠ .syncing v r) → app.inflight = none) := by
  have hends := Upholds.returned (E := fun _ e => e ≠ .registryAway ∧ True)
    (App.tick_away fe s.host hv.core hv.guarded hv.sound now hin) h
  obtain ⟨hd, w', hw', hfinished⟩ := hends
  cases hw.symm.trans hw'
  obtain ⟨w', hw', hopen⟩ := hc.inflight i hin
  cases hw.symm.trans hw'
  exact ⟨hd.effect, hopen, fun hended => hfinished (hopen.finished.2 hended)⟩

/-- In every state of a session its syncs are in order. -/
theorem syncs_in_order (hs : start.Starts) (hr : Reaches fe start s) : s.InOrder fe := by
  have hv := hs.reaches hr
  have hc := hs.custody hr
  -- a vault that a panic lost is answered by a lock at the next tick
  have lost : s.Lost → ∀ now host app, s.Handles fe (.tick now) host (.returned app) → app.core.Locked := by
    rintro ⟨i, w, hin, hw, hjob⟩ now host app h
    obtain ⟨he, hopen, hends⟩ := tick_of hv hc hin hw h
    rcases he.ends hin (hends fun v r hjob' => by
      rw [hjob] at hjob'; cases hjob') with hlocked | ⟨w', result, hw', hmem⟩
    · exact hlocked
    · cases hw.symm.trans hw'
      cases hopen with
      | syncing hjob' _ _ => rw [hjob] at hjob'; cases hjob'
      | returned hjob' _ _ _ => rw [hjob] at hjob'; cases hjob'
      | panicked _ hbusy _ => exact absurd hmem (hbusy.no_done result)
  refine ⟨holder_of hv hc, fun event host h => ?_, fun i w hw => ?_, ?_, lost, fun hin s' hstep => ?_,
    fun hin count => ?_,
    fun hin now hlock => ?_, fun hlock s' hstep => ?_⟩
  · exact (Upholds.failed (hv.ends event) h).1 rfl
  · split
    · rename_i hin
      obtain ⟨w', hw', hopen⟩ := hc.inflight i hin
      cases hw.symm.trans hw'
      exact hopen.terminals
    · rename_i hin
      exact (hc.collected i w hw hin).terminals
  · rintro ⟨i, w, hin, hw, hended⟩ now host app h
    exact (tick_of hv hc hin hw h).2.2 hended
  · obtain ⟨i, hin⟩ := Option.isSome_iff_exists.1 hin
    rcases hv.step_cases hstep with hd | ⟨hw, -⟩
    · exact (hd.effect.away hv.core hin).1
    · exact hw.length
  · obtain ⟨i, hin⟩ := Option.isSome_iff_exists.1 hin
    have hp : s.app.phase = .workspace :=
      (hv.core.away (by rw [show s.app.core.inflight = some i from hin]; exact nofun)).1
    have hsync : s.app.isSyncing = true := by rw [App.isSyncing, hin]; rfl
    have hro : ¬ (s.app.readOnly = true ∧ Command.lockNow ∈ Command.roMutatingCommands) := fun h =>
      absurd h.2 (by decide)
    unfold App.executeCommand
    rw [if_neg hro]
    dsimp only
    rw [if_pos hp, App.requestLock, if_pos hsync]
  · obtain ⟨i, hin⟩ := Option.isSome_iff_exists.1 hin
    have hvault : s.app.vault = none :=
      (hv.core.away (by rw [show s.app.core.inflight = some i from hin]; exact nofun)).2.1
    rw [App.idle_syncing now hin hvault]
    simp [hlock]
  · have hin : s.app.core.inflight ≠ none := fun hnone => by
      have := (hv.core.home hnone).2.2
      rw [show s.app.core.lockPending = true from hlock] at this
      cases this
    obtain ⟨i, hin⟩ := Option.ne_none_iff_exists'.1 hin
    rcases hv.step_cases hstep with hd | ⟨-, happ⟩
    · rcases (hd.effect.away hv.core hin).2 hlock with hlocked | ⟨hlock', hin'⟩
      · exact .inl hlocked
      · exact .inr ⟨hlock', hin'.trans hin.symm⟩
    · rw [happ]
      exact .inr ⟨hlock, rfl⟩

/-! ## A worker that panics -/

/-- The first vault of the small session, unlocked and sent to a worker. -/
def smallSyncing (view : View) : Session Unit where
  host := { smallHost with
    opened := some (smallVault "/a")
    workers := [{ job := .syncing (smallVault "/a") smallRegistry, trigger := .onUnlock }] }
  app := { smallApp false true .workspace none "a" view { config := ⟨fromSecs 60⟩, lastActivity := some 0 } with
    registry := none
    inflight := some 0 }

theorem small_sync : ∃ view, Reaches smallFrontend (smallStart false true) (smallSyncing view) := by
  have unlock : ∃ view, (smallStart false true).Handles smallFrontend (press .enter) (smallSyncing view).host
      (.returned (smallSyncing view).app) :=
    ⟨_, .ask (a := (0 : Nat)) rfl (.ask (exec_openVault (v := smallVault "/a") small_files.1) (.ask (a := (0 : Nat)) rfl
      (.ask (a := (0 : Nat)) ⟨rfl, rfl⟩ .done)))⟩
  obtain ⟨view, unlock⟩ := unlock
  exact ⟨view, .single (.event unlock)⟩

/-- Where a sync is in flight, all is in order. -/
theorem small_sync_in_order : ∃ view, (smallSyncing view).app.inflight = some 0 ∧
    (smallSyncing view).InOrder smallFrontend := by
  obtain ⟨view, run⟩ := small_sync
  exact ⟨view, rfl, syncs_in_order (small_starts false true) run⟩

/-- Between the panic of a worker and the next tick the unlocked vault has no holder. -/
theorem panic_leaves_no_holder : ¬ ∀ s, Reaches smallFrontend (smallStart false true) s → s.app.phase = .workspace →
    s.OneHolder := by
  intro claim
  obtain ⟨view, run⟩ := small_sync
  have panic : (smallSyncing view).host.Work _ := .panic (i := 0) rfl rfl
  rcases claim _ (run.tail (.work panic)) rfl with ⟨hvault, -, -⟩ | ⟨-, -, i, ⟨w, hw, hholds⟩, -⟩
  · cases hvault
  · cases i with
    | zero =>
      cases hw
      rcases hholds with ⟨v, r, hjob⟩ | ⟨result, hmem⟩
      · cases hjob
      · cases hmem
    | succ i => cases hw

end Session

end Falach.Tui
