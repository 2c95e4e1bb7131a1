import Falach.Security.AutoLock
import Mathlib.Data.List.Induction
/-!
# Runs of the auto-lock controller

What a controller is asked to do, and what is sent to it, in any order. When it locks is a matter of what it has seen
of the user and of when it was looked at, which `Watch` keeps.
-/

namespace Falach

namespace AutoLockController

/-- `lock_now`. -/
def lockNow (c : AutoLockController) : AutoLockController := c.transitionToLocked

/-- The calls of a controller, and an event that a source sends to it. -/
inductive Input where
  | registerActivity (now : Instant)
  | tick (now : Instant)
  | lockNow
  | unlock (now : Instant)
  | queue (event : SecurityEvent)

def step (c : AutoLockController) : Input → AutoLockController
  | .registerActivity now => c.registerActivity now
  | .tick now => (c.tick now).2
  | .lockNow => c.lockNow
  | .unlock now => c.unlock now
  | .queue event => { c with events := c.events ++ [event] }

def run (c : AutoLockController) (inputs : List Input) : AutoLockController := inputs.foldl step c

namespace Input

def instant : Input → Option Instant
  | .registerActivity now | .tick now | .unlock now => some now
  | .lockNow | .queue _ => none

/-- The instants do not decrease. -/
def InOrder (inputs : List Input) : Prop := (inputs.filterMap instant).Pairwise (· ≤ ·)

end Input

/-! ## What the controller has seen -/

/-- The events that are queued, when the latest activity or unlock was seen, and when the latest tick was. A queued
activity is seen by the tick that drains it. -/
structure Watch where
  pending : List SecurityEvent := []
  latest : Option Instant := none
  lastTick : Option Instant := none

namespace Watch

def step (w : Watch) : Input → Watch
  | .registerActivity now | .unlock now => { w with latest := some now }
  | .tick now =>
    { pending := [], latest := if .activity ∈ w.pending then some now else w.latest, lastTick := some now }
  | .lockNow => w
  | .queue event => { w with pending := w.pending ++ [event] }

theorem step_tick (w : Watch) (now : Instant) : w.step (.tick now) =
    { pending := [], latest := if .activity ∈ w.pending then some now else w.latest, lastTick := some now } :=
  rfl

end Watch

def watch (inputs : List Input) : Watch := inputs.foldl Watch.step {}

variable {c : AutoLockController} {w : Watch} {inputs : List Input} {input : Input} {now : Instant}

theorem run_snoc (c : AutoLockController) (inputs : List Input) (input : Input) :
    c.run (inputs ++ [input]) = (c.run inputs).step input :=
  List.foldl_append

theorem watch_snoc (inputs : List Input) (input : Input) : watch (inputs ++ [input]) = (watch inputs).step input :=
  List.foldl_append

/-! ## A tick -/

/-- The events of a tick, one after the other. -/
def drain (c : AutoLockController) (now : Instant) (events : List SecurityEvent) : AutoLockController :=
  events.foldl (fun c event => c.receive now event) c

/-- The drain locks if the controller is locked or an event says so; otherwise it records activity at the instant of the
tick, if there is any. -/
theorem drain_spec (c : AutoLockController) (now : Instant) (events : List SecurityEvent) :
    (c.drain now events).config = c.config ∧
    ((c.state = .locked ∨ ∃ event ∈ events, event ≠ .activity) → (c.drain now events).state = .locked) ∧
    (c.state ≠ .locked → (∀ event ∈ events, event = .activity) →
      c.drain now events = if .activity ∈ events then { c with state := .active, lastActivity := some now }
        else c) := by
  induction events generalizing c with
  | nil =>
    refine ⟨rfl, fun h => h.resolve_right ?_, fun _ _ => rfl⟩
    rintro ⟨event, hmem, -⟩
    cases hmem
  | cons event events ih =>
    obtain ⟨hconfig, hlocks, hsees⟩ := ih (c.receive now event)
    refine ⟨hconfig.trans (c.receive_config now event), fun h => hlocks ?_, fun hopen hall => ?_⟩
    · rcases h with h | ⟨other, hmem, hother⟩
      · left
        cases event with
        | activity =>
          unfold receive registerActivity
          rw [h]
          exact h
        | osLock => rfl
        | manual => rfl
      · rcases List.mem_cons.1 hmem with rfl | hmem
        · left
          cases other with
          | activity => exact absurd rfl hother
          | osLock => rfl
          | manual => rfl
        · exact .inr ⟨other, hmem, hother⟩
    · obtain rfl := hall event List.mem_cons_self
      have hreceive : c.receive now .activity = { c with state := .active, lastActivity := some now } := by
        unfold receive registerActivity
        cases hs : c.state with
        | active => rfl
        | expired => rfl
        | locked => exact absurd hs hopen
      rw [hreceive] at hsees
      have hrest := hsees nofun fun e he => hall e (List.mem_cons_of_mem _ he)
      rw [if_pos List.mem_cons_self]
      change drain (c.receive now .activity) now events = _
      rw [hreceive, hrest]
      split <;> rfl

theorem tick_eq (c : AutoLockController) (now : Instant) :
    c.tick now = (((({ c with events := [] } : AutoLockController).drain now c.events).applyIdleLogic now).state,
      (({ c with events := [] } : AutoLockController).drain now c.events).applyIdleLogic now) :=
  rfl

theorem applyIdleLogic_locked (h : c.state = .locked) : c.applyIdleLogic now = c := by
  unfold applyIdleLogic
  rw [h]

/-- A tick with a lock event, or of a locked controller, locks. -/
theorem tick_locked (h : c.state = .locked ∨ ∃ event ∈ c.events, event ≠ .activity) :
    (c.tick now).2.state = .locked := by
  obtain ⟨-, hlocks, -⟩ := drain_spec { c with events := [] } now c.events
  have hdrained := hlocks h
  rw [tick_eq, applyIdleLogic_locked hdrained]
  exact hdrained

/-- One without, of a controller that is not locked, records activity and then applies the timeout. -/
theorem tick_idle (hopen : c.state ≠ .locked) (hall : ∀ event ∈ c.events, event = .activity) :
    (c.tick now).2 = (if .activity ∈ c.events then { c with state := .active, lastActivity := some now, events := [] }
      else { c with events := [] } : AutoLockController).applyIdleLogic now := by
  obtain ⟨-, -, hsees⟩ := drain_spec { c with events := [] } now c.events
  rw [tick_eq, hsees hopen hall]

theorem applyIdleLogic_events (c : AutoLockController) (now : Instant) : (c.applyIdleLogic now).events = c.events := by
  unfold applyIdleLogic
  repeat' split
  all_goals rfl

theorem applyIdleLogic_lastActivity (c : AutoLockController) (now : Instant) :
    (c.applyIdleLogic now).lastActivity = c.lastActivity := by
  unfold applyIdleLogic
  repeat' split
  all_goals rfl

/-- When the timeout changes the state. -/
theorem applyIdleLogic_state (c : AutoLockController) (now : Instant) : (c.applyIdleLogic now).state =
    match c.state with
    | .active => if ∃ last, c.lastActivity = some last ∧ c.config.idleTimeout ≤ now - last then .expired else .active
    | .expired => .locked
    | .locked => .locked := by
  unfold applyIdleLogic
  cases hs : c.state with
  | active =>
    cases hlast : c.lastActivity with
    | none => simp [hs]
    | some last =>
      by_cases h : c.config.idleTimeout ≤ now - last
      · simp [h]
      · simp [h, hs]
  | expired => rfl
  | locked => exact hs

/-! ## The controller and what it has seen -/

/-- What the controller keeps of what it has seen. -/
structure Tracks (c : AutoLockController) (w : Watch) : Prop where
  events : c.events = w.pending
  activity : c.state ≠ .locked → c.lastActivity = w.latest
  /-- It expires at a tick that is late. -/
  expired : c.state = .expired → ∃ seen tick, w.latest = some seen ∧ w.lastTick = some tick ∧
    seen + c.config.idleTimeout ≤ tick
  /-- After a tick that is late it is not active. -/
  late : ∀ seen tick, w.latest = some seen → w.lastTick = some tick → seen + c.config.idleTimeout ≤ tick →
    c.state ≠ .active

/-- The instants of a watch are not later than `now`. -/
structure Watch.Before (w : Watch) (now : Instant) : Prop where
  latest : ∀ seen, w.latest = some seen → seen ≤ now
  lastTick : ∀ tick, w.lastTick = some tick → tick ≤ now

/-- A locked controller remembers nothing but its events. -/
theorem Tracks.of_locked (hevents : c.events = w.pending) (hlocked : c.state = .locked) : Tracks c w := by
  refine ⟨hevents, fun h => absurd hlocked h, fun h => ?_, fun seen tick _ _ _ h => ?_⟩
  · rw [hlocked] at h
    cases h
  · rw [hlocked] at h
    cases h

/-- A controller that has just seen the user is active. -/
theorem Tracks.of_seen (hpos : 0 < c.config.idleTimeout) (hevents : c.events = w.pending) (hstate : c.state = .active)
    (hactivity : c.lastActivity = some now) (hlatest : w.latest = some now) (hbefore : w.Before now) : Tracks c w := by
  refine ⟨hevents, fun _ => hactivity.trans hlatest.symm, fun h => ?_, fun seen tick hseen htick hlate => ?_⟩
  · rw [hstate] at h
    cases h
  · obtain rfl := Option.some.inj (hlatest.symm.trans hseen)
    exact absurd (hlate.trans (hbefore.lastTick tick htick)) (Nat.not_le.2 (Nat.lt_add_of_pos_right hpos))

theorem tick_events (c : AutoLockController) (now : Instant) : (c.tick now).2.events = [] := by
  have drained : ∀ (events : List SecurityEvent) (c : AutoLockController), (c.drain now events).events = c.events := by
    intro events
    induction events with
    | nil => exact fun _ => rfl
    | cons event events ih =>
      intro c
      refine (ih (c.receive now event)).trans ?_
      unfold receive registerActivity
      cases event with
      | activity => cases c.state <;> rfl
      | osLock => rfl
      | manual => rfl
  rw [tick_eq, applyIdleLogic_events, drained]

/-- A tick. -/
theorem Tracks.tick (h : Tracks c w) (hpos : 0 < c.config.idleTimeout) (hbefore : w.Before now) :
    Tracks (c.tick now).2 (w.step (.tick now)) := by
  by_cases hlock : c.state = .locked ∨ ∃ event ∈ c.events, event ≠ .activity
  · exact .of_locked (c.tick_events now) (tick_locked hlock)
  rw [not_or] at hlock
  obtain ⟨hopen, hall⟩ := hlock
  push Not at hall
  have hactivity := h.activity hopen
  rw [tick_idle hopen hall, Watch.step_tick, ← h.events]
  by_cases hmem : SecurityEvent.activity ∈ c.events
  · -- the user is seen, at this very instant
    rw [if_pos hmem, if_pos hmem]
    refine .of_seen ?_ (applyIdleLogic_events _ _) ?_ (applyIdleLogic_lastActivity _ _) rfl ⟨?_, ?_⟩
    · rw [applyIdleLogic_config]
      exact hpos
    · rw [applyIdleLogic_state]
      refine if_neg ?_
      rintro ⟨last, hlast, hlate⟩
      obtain rfl := Option.some.inj hlast
      rw [Nat.sub_self] at hlate
      exact absurd hlate (Nat.not_le.2 hpos)
    · intro seen hseen
      exact (Option.some.inj hseen).ge
    · intro tick htick
      exact (Option.some.inj htick).ge
  · rw [if_neg hmem, if_neg hmem]
    have hlate : ∀ last, c.lastActivity = some last →
        (c.config.idleTimeout ≤ now - last ↔ last + c.config.idleTimeout ≤ now) := by
      intro last hlast
      exact Nat.le_sub_iff_add_le' (hbefore.latest last (hactivity ▸ hlast))
    -- nobody was seen: the vault expires at the first tick that is a full timeout after the last activity
    refine ⟨applyIdleLogic_events _ _, fun _ => (applyIdleLogic_lastActivity _ _).trans hactivity, fun hexpired => ?_,
      fun seen tick hseen htick hle => ?_⟩
    · rw [applyIdleLogic_state] at hexpired
      cases hs : c.state with
      | active =>
        simp only [hs] at hexpired
        split at hexpired
        · rename_i hidle
          obtain ⟨last, hlast, hle⟩ := hidle
          refine ⟨last, now, hactivity ▸ hlast, rfl, ?_⟩
          rw [applyIdleLogic_config]
          exact (hlate last hlast).1 hle
        · cases hexpired
      | expired =>
        simp only [hs] at hexpired
        cases hexpired
      | locked => exact absurd hs hopen
    · obtain rfl := Option.some.inj htick
      rw [applyIdleLogic_config] at hle
      rw [applyIdleLogic_state]
      have hlast : c.lastActivity = some seen := hactivity.trans hseen
      cases hs : c.state with
      | active =>
        dsimp only
        rw [if_pos ⟨seen, hlast, (hlate seen hlast).2 hle⟩]
        exact nofun
      | expired => exact nofun
      | locked => exact nofun

/-- An input. -/
theorem Tracks.step (h : Tracks c w) (hpos : 0 < c.config.idleTimeout)
    (hbefore : ∀ now, input.instant = some now → w.Before now) : Tracks (c.step input) (w.step input) := by
  have seen : ∀ now, w.Before now → Tracks (c.unlock now) { w with latest := some now } := by
    intro now hnow
    refine .of_seen hpos h.events rfl rfl rfl ⟨fun seen hseen => ?_, hnow.lastTick⟩
    exact (Option.some.inj hseen).ge
  cases input with
  | registerActivity now =>
    have hseen := seen now (hbefore now rfl)
    change Tracks (c.registerActivity now) _
    unfold AutoLockController.registerActivity
    cases hs : c.state with
    | active => exact hseen
    | expired => exact hseen
    | locked => exact .of_locked h.events hs
  | tick now => exact h.tick hpos (hbefore now rfl)
  | lockNow => exact .of_locked h.events rfl
  | unlock now => exact seen now (hbefore now rfl)
  | queue event => exact ⟨congrArg (· ++ [event]) h.events, h.activity, h.expired, h.late⟩

theorem step_config (c : AutoLockController) (input : Input) : (c.step input).config = c.config := by
  cases input with
  | registerActivity now => exact c.registerActivity_config now
  | tick now => exact c.tick_config now
  | lockNow => rfl
  | unlock now => rfl
  | queue event => rfl

theorem run_config (c : AutoLockController) (inputs : List Input) : (c.run inputs).config = c.config := by
  induction inputs using List.reverseRecOn with
  | nil => rfl
  | append_singleton inputs input ih => rw [run_snoc, step_config, ih]

/-- What is watched happened at an instant of the run. -/
theorem watch_instants (inputs : List Input) :
    (∀ seen, (watch inputs).latest = some seen → seen ∈ inputs.filterMap Input.instant) ∧
    ∀ tick, (watch inputs).lastTick = some tick → tick ∈ inputs.filterMap Input.instant := by
  induction inputs using List.reverseRecOn with
  | nil => exact ⟨nofun, nofun⟩
  | append_singleton inputs input ih =>
    rw [watch_snoc, List.filterMap_append]
    have old : ∀ {now}, now ∈ inputs.filterMap Input.instant →
        now ∈ inputs.filterMap Input.instant ++ [input].filterMap Input.instant := fun h => List.mem_append_left _ h
    have new : ∀ {now}, input.instant = some now →
        now ∈ inputs.filterMap Input.instant ++ [input].filterMap Input.instant := by
      intro now h
      exact List.mem_append_right _ (List.mem_filterMap.2 ⟨input, List.mem_singleton_self _, h⟩)
    cases input with
    | registerActivity now => exact ⟨fun seen h => new h, fun tick h => old (ih.2 tick h)⟩
    | tick now =>
      refine ⟨fun seen h => ?_, fun tick h => new h⟩
      change (if _ then _ else _) = _ at h
      split at h
      · exact new h
      · exact old (ih.1 seen h)
    | lockNow => exact ⟨fun seen h => old (ih.1 seen h), fun tick h => old (ih.2 tick h)⟩
    | unlock now => exact ⟨fun seen h => new h, fun tick h => old (ih.2 tick h)⟩
    | queue event => exact ⟨fun seen h => old (ih.1 seen h), fun tick h => old (ih.2 tick h)⟩

theorem Input.InOrder.before (h : Input.InOrder (inputs ++ [input])) (hinstant : input.instant = some now) :
    (watch inputs).Before now := by
  unfold InOrder at h
  rw [List.filterMap_append, List.pairwise_append] at h
  have le : ∀ past ∈ inputs.filterMap instant, past ≤ now := fun past hpast =>
    h.2.2 past hpast now (List.mem_filterMap.2 ⟨input, List.mem_singleton_self _, hinstant⟩)
  obtain ⟨hlatest, hlastTick⟩ := watch_instants inputs
  exact ⟨fun seen hseen => le seen (hlatest seen hseen), fun tick htick => le tick (hlastTick tick htick)⟩

theorem Input.InOrder.init (h : Input.InOrder (inputs ++ [input])) : Input.InOrder inputs := by
  unfold InOrder at h
  rw [List.filterMap_append] at h
  exact (List.pairwise_append.1 h).1

theorem new_ok {config : AutoLockConfig} (h : new config = .ok c) : c = { config } ∧ 0 < config.idleTimeout := by
  unfold new AutoLockConfig.validate at h
  split at h
  · cases h
  · rename_i hzero
    cases h
    exact ⟨rfl, Nat.pos_of_ne_zero hzero⟩

theorem run_pos {config : AutoLockConfig} (hnew : new config = .ok c) (inputs : List Input) :
    0 < (c.run inputs).config.idleTimeout := by
  obtain ⟨rfl, hpos⟩ := new_ok hnew
  rw [run_config]
  exact hpos

/-- In every run the controller keeps what it has seen. -/
theorem run_tracks {config : AutoLockConfig} (hnew : new config = .ok c) (horder : Input.InOrder inputs) :
    Tracks (c.run inputs) (watch inputs) := by
  induction inputs using List.reverseRecOn with
  | nil =>
    obtain ⟨rfl, -⟩ := new_ok hnew
    exact ⟨rfl, fun _ => rfl, nofun, nofun⟩
  | append_singleton inputs input ih =>
    rw [run_snoc, watch_snoc]
    exact (ih horder.init).step (run_pos hnew inputs) fun now hinstant => horder.before hinstant

/-! ## The contract -/

/-- Only an unlock takes a locked controller back. -/
theorem step_locked (hlocked : c.state = .locked) (hno : ∀ now, input ≠ .unlock now) :
    (c.step input).state = .locked := by
  cases input with
  | registerActivity now =>
    change (c.registerActivity now).state = _
    unfold registerActivity
    rw [hlocked]
    exact hlocked
  | tick now => exact tick_locked (.inl hlocked)
  | lockNow => rfl
  | unlock now => exact absurd rfl (hno now)
  | queue event => exact hlocked

/-- An event stays queued until a tick. -/
theorem run_events {event : SecurityEvent} (h : event ∈ c.events) (hno : ∀ input ∈ inputs, ∀ now, input ≠ .tick now) :
    event ∈ (c.run inputs).events := by
  induction inputs using List.reverseRecOn with
  | nil => exact h
  | append_singleton inputs input ih =>
    have hmem := ih fun i hi => hno i (List.mem_append_left _ hi)
    rw [run_snoc]
    cases input with
    | registerActivity now =>
      change event ∈ ((c.run inputs).registerActivity now).events
      unfold registerActivity
      split <;> exact hmem
    | tick now => exact absurd rfl (hno _ (List.mem_append_right _ (List.mem_singleton_self _)) now)
    | lockNow => exact hmem
    | unlock now => exact hmem
    | queue other => exact List.mem_append_left _ hmem

/-- After a tick the latest one is not earlier. -/
theorem watch_lastTick {before between : List Input} (horder : Input.InOrder (before ++ .tick now :: between)) :
    ∃ tick, (watch (before ++ .tick now :: between)).lastTick = some tick ∧ now ≤ tick := by
  induction between using List.reverseRecOn with
  | nil => exact ⟨now, by rw [watch_snoc]; rfl, le_rfl⟩
  | append_singleton between input ih =>
    rw [← List.cons_append, ← List.append_assoc] at horder ⊢
    obtain ⟨tick, htick, hle⟩ := ih horder.init
    rw [watch_snoc]
    cases input with
    | registerActivity _ => exact ⟨tick, htick, hle⟩
    | tick later => exact ⟨later, rfl, hle.trans ((horder.before rfl).lastTick tick htick)⟩
    | lockNow => exact ⟨tick, htick, hle⟩
    | unlock _ => exact ⟨tick, htick, hle⟩
    | queue _ => exact ⟨tick, htick, hle⟩

/-- A late tick of a controller that is not active locks. -/
theorem tick_late (h : Tracks c w) (hactive : c.state ≠ .active) (hunseen : .activity ∉ w.pending) :
    (c.tick now).2.state = .locked := by
  by_cases hlock : c.state = .locked ∨ ∃ event ∈ c.events, event ≠ .activity
  · exact tick_locked hlock
  rw [not_or] at hlock
  obtain ⟨hopen, hall⟩ := hlock
  push Not at hall
  rw [tick_idle hopen hall, if_neg (by rw [h.events]; exact hunseen), applyIdleLogic_state]
  cases hs : c.state with
  | active => exact absurd hs hactive
  | expired => rfl
  | locked => rfl

/-- A tick that takes an open controller out of the active state was told to lock, or is late. -/
theorem tick_not_active (h : Tracks c w) (hpos : 0 < c.config.idleTimeout) (hbefore : w.Before now)
    (hopen : c.state ≠ .locked) (hleaves : (c.tick now).2.state ≠ .active) :
    (∃ event ∈ w.pending, event ≠ .activity) ∨
      ∃ seen, (w.step (.tick now)).latest = some seen ∧ seen + c.config.idleTimeout ≤ now := by
  by_cases hlock : ∃ event ∈ c.events, event ≠ .activity
  · rw [h.events] at hlock
    exact .inl hlock
  push Not at hlock
  right
  rw [tick_idle hopen hlock, applyIdleLogic_state] at hleaves
  rw [Watch.step_tick, ← h.events]
  dsimp only
  split
  · rename_i hmem
    rw [if_pos hmem] at hleaves
    refine absurd (if_neg ?_) hleaves
    rintro ⟨last, hlast, hle⟩
    obtain rfl := Option.some.inj hlast
    rw [Nat.sub_self] at hle
    exact absurd hle (Nat.not_le.2 hpos)
  · rename_i hmem
    rw [if_neg hmem] at hleaves
    cases hs : c.state with
    | active =>
      simp only [hs] at hleaves
      split at hleaves
      · rename_i hidle
        obtain ⟨last, hlast, hle⟩ := hidle
        have hseen := (h.activity hopen).symm.trans hlast
        exact ⟨last, hseen, (Nat.le_sub_iff_add_le' (hbefore.latest last hseen)).1 hle⟩
      · exact absurd rfl hleaves
    | expired =>
      obtain ⟨seen, tick, hseen, htick, hle⟩ := h.expired hs
      exact ⟨seen, hseen, hle.trans (hbefore.lastTick tick htick)⟩
    | locked => exact absurd hs hopen

/-- A controller of any timeout that is valid, in every run in which the instants do not decrease: once it is locked
only an unlock takes it back; a lock event that is queued locks at the next tick; it is locked by the second tick that
comes the timeout or more after the latest activity or unlock; and a tick takes it out of the active state only if a
lock event was queued, or the timeout has passed. -/
theorem locks_when_told_or_idle {config : AutoLockConfig} (hnew : new config = .ok c) :
    (∀ inputs input, (c.run inputs).state = .locked → (∀ now, input ≠ .unlock now) →
      (c.run (inputs ++ [input])).state = .locked) ∧
    (∀ before event between now, event ≠ .activity → (∀ input ∈ between, ∀ now, input ≠ .tick now) →
      ((c.run (before ++ .queue event :: between)).tick now).1 = .locked) ∧
    (∀ before t₁ between t₂ seen, Input.InOrder (before ++ .tick t₁ :: between ++ [.tick t₂]) →
      (watch (before ++ .tick t₁ :: between ++ [.tick t₂])).latest = some seen → seen + config.idleTimeout ≤ t₁ →
      ((c.run (before ++ .tick t₁ :: between)).tick t₂).1 = .locked) ∧
    (∀ inputs now, Input.InOrder (inputs ++ [.tick now]) → (c.run inputs).state ≠ .locked →
      ((c.run inputs).tick now).1 ≠ .active → (∃ event ∈ (watch inputs).pending, event ≠ .activity) ∨
        ∃ seen, (watch (inputs ++ [.tick now])).latest = some seen ∧ seen + config.idleTimeout ≤ now) := by
  have hconfig : ∀ inputs, (c.run inputs).config = config := by
    intro inputs
    rw [run_config, (new_ok hnew).1]
  have hpos := (new_ok hnew).2
  refine ⟨fun inputs input hlocked hno => ?_, fun before event between now hevent hno => ?_,
    fun before t₁ between t₂ seen horder hseen hlate => ?_, fun inputs now horder hopen hleaves => ?_⟩
  · rw [run_snoc]
    exact step_locked hlocked hno
  · have hrun : c.run (before ++ .queue event :: between) = ((c.run before).step (.queue event)).run between :=
      List.foldl_append
    have hqueued : event ∈ ((c.run before).step (.queue event)).events :=
      List.mem_append_right _ (List.mem_singleton_self _)
    refine tick_locked (.inr ⟨event, ?_, hevent⟩)
    rw [hrun]
    exact run_events hqueued hno
  · have htracks := run_tracks hnew horder.init
    obtain ⟨tick, htick, hle⟩ := watch_lastTick horder.init
    have hend := (horder.before rfl).lastTick tick htick
    rw [watch_snoc, Watch.step_tick] at hseen
    dsimp only at hseen
    split at hseen
    · obtain rfl := Option.some.inj hseen
      exact absurd ((hlate.trans hle).trans hend) (Nat.not_le.2 (Nat.lt_add_of_pos_right hpos))
    · rename_i hunseen
      refine tick_late htracks (htracks.late seen tick hseen htick ?_) hunseen
      rw [hconfig]
      exact hlate.trans hle
  · have := tick_not_active (run_tracks hnew horder.init) (run_pos hnew inputs) (horder.before rfl) hopen hleaves
    rw [hconfig] at this
    rw [watch_snoc]
    exact this

/-- The default timeout: an activity at the start, and ticks ten minutes later. -/
theorem locks_when_told_or_idle_default : ∃ c, new .default = .ok c ∧
    ((c.run [.registerActivity 0, .tick (fromSecs 600)]).tick (fromSecs 600)).1 = .locked := by
  have hnew : new .default = .ok { config := .default } := by decide +kernel
  have horder : Input.InOrder [.registerActivity 0, .tick (fromSecs 600), .tick (fromSecs 600)] := by
    unfold Input.InOrder
    decide +kernel
  obtain ⟨-, -, hidle, -⟩ := locks_when_told_or_idle hnew
  exact ⟨_, hnew, hidle [.registerActivity 0] (fromSecs 600) [] (fromSecs 600) 0 horder rfl (by decide +kernel)⟩

end AutoLockController

end Falach
