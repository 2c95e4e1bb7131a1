import Falach.Tui.Reachable
/-!
# The timeout after an unlock

Whether the idle clock runs with the timeout of the vault that was unlocked, or with one that an earlier vault has left
in the controller.
-/

namespace Falach.Tui

open Keepass Program

variable {Form : Type} {fe : Frontend Form}

theorem Sends.same {h h' : Host} {c c' : Core} (hs : Sends h c h' c') :
    c'.phase = c.phase ∧ c'.selectedVault = c.selectedVault ∧ c'.timeout = c.timeout := by
  cases hs with
  | stays => exact ⟨rfl, rfl, rfl⟩
  | spawned _ _ _ => exact ⟨rfl, rfl, rfl⟩

/-- An unlock replaces the timeout by one that the vault sets for itself, and else leaves it as it was. -/
theorem Effect.unlock {h h' : Host} {c c' : Core} (he : Effect h c h' c') (hp : c.phase ≠ .workspace)
    (hp' : c'.phase = .workspace) : ∃ name input attempts r, c.phase = .unlockPrompt name input attempts ∧
      c.registry = some r ∧ c'.selectedVault = some name ∧ c'.timeout = (App.overrideOf r name).getD c.timeout := by
  cases he with
  | left hs => exact absurd (hs.same.1.symm.trans hp') hp
  | moved _ hmoved => exact absurd hp' hmoved
  | unlocked hprompt hr hs => exact ⟨_, _, _, _, hprompt, hr, hs.same.2.1, hs.same.2.2⟩
  | edited _ _ _ => exact absurd hp' hp
  | configured _ _ _ => exact absurd hp' hp
  | locked _ => cases hp'
  | deferred _ => exact absurd hp' hp
  | pending _ _ _ _ => exact absurd hp' hp
  | collected _ _ _ => cases hp'
  | handedBack _ _ _ _ => exact absurd hp' hp

namespace Session

/-- The valid timeout that a vault sets for itself, or the default of the frontend. -/
def ownTimeout (registry : Registry) (name : String) : AutoLockConfig := (App.overrideOf registry name).getD .default

/-- The step unlocks a vault. -/
def Unlocks (s s' : Session Form) : Prop := s.app.phase ≠ .workspace ∧ s'.app.phase = .workspace

/-- After the step the idle clock runs with the timeout of the vault that it has unlocked. -/
def LocksByItsOwn (s s' : Session Form) : Prop := ∃ registry name, s.app.registry = some registry ∧
  s'.app.selectedVault = some name ∧ s'.app.controller.config = ownTimeout registry name

/-- The vault whose password is asked for sets a valid timeout for itself, or none is left over in the controller. -/
def NothingLeftOver (s : Session Form) : Prop := ∀ registry name input attempts, s.app.registry = some registry →
  s.app.phase = .unlockPrompt name input attempts →
  (App.overrideOf registry name).isSome ∨ s.app.controller.config = .default

variable {s s' start t : Session Form}

theorem unlocks_of_prompt {s s' : Session Form} {name : String} {input : PasswordInput} {attempts : Nat}
    (hp : s.app.phase = .unlockPrompt name input attempts) (hp' : s'.app.phase = .workspace) : s.Unlocks s' :=
  ⟨fun h => (by rw [hp] at h; cases h), hp'⟩

theorem Valid.unlock (hv : s.Valid) (h : Step fe s s') (hu : s.Unlocks s') :
    s.LocksByItsOwn s' ↔ s.NothingLeftOver := by
  rcases hv.step_cases h with hd | ⟨-, happ⟩
  · obtain ⟨name, input, attempts, r, hprompt, hr, hname, htimeout⟩ := hd.effect.unlock hu.1 hu.2
    have htimeout : s'.app.controller.config = (App.overrideOf r name).getD s.app.controller.config := htimeout
    have own : s.LocksByItsOwn s' ↔ (App.overrideOf r name).getD s.app.controller.config = ownTimeout r name := by
      refine ⟨?_, fun hown => ⟨r, name, hr, hname, htimeout.trans hown⟩⟩
      rintro ⟨registry, name', hr', hname', hown⟩
      cases hr.symm.trans hr'
      cases hname.symm.trans hname'
      exact htimeout.symm.trans hown
    have left : s.NothingLeftOver ↔ (App.overrideOf r name).isSome ∨ s.app.controller.config = .default := by
      refine ⟨fun h => h r name input attempts hr hprompt, fun h registry name' input' attempts' hr' hprompt' => ?_⟩
      cases hr.symm.trans hr'
      cases hprompt.symm.trans hprompt'
      exact h
    rw [own, left, ownTimeout]
    cases App.overrideOf r name with
    | none => simp
    | some cfg => simp
  · rw [Unlocks, happ] at hu
    exact absurd hu.2 hu.1

/-- In a session every unlocked vault locks by its own timeout exactly if none is unlocked without a timeout of its own
while that of another is left in the controller. -/
theorem vaults_lock_by_their_own (hs : start.Starts) {steps : List (Session Form × Session Form)}
    (run : Run fe start steps t) :
    (∀ step ∈ steps, step.1.Unlocks step.2 → step.1.LocksByItsOwn step.2) ↔
      ∀ step ∈ steps, step.1.Unlocks step.2 → step.1.NothingLeftOver := by
  have each : ∀ step ∈ steps, step.1.Unlocks step.2 → (step.1.LocksByItsOwn step.2 ↔ step.1.NothingLeftOver) :=
    fun step hmem hu => (hs.reaches (run.steps.2 step hmem).1).unlock (run.steps.2 step hmem).2 hu
  constructor
  · intro h step hmem hu
    exact (each step hmem hu).1 (h step hmem hu)
  · intro h step hmem hu
    exact (each step hmem hu).2 (h step hmem hu)

/-- The first vault of the small session sets a minute for itself; it is unlocked with nothing left over. -/
theorem small_locks_by_its_own : ∃ t, Run smallFrontend (smallStart false false) [(smallStart false false, t)] t ∧
    (smallStart false false).Unlocks t ∧ (smallStart false false).LocksByItsOwn t := by
  obtain ⟨view, unlock⟩ := small_unlock false small_files.1 smallView { config := .default }
  refine ⟨_, .step .nil (.event unlock), unlocks_of_prompt rfl rfl, ?_⟩
  refine (vaults_lock_by_their_own (small_starts false false) (.step .nil (.event unlock))).2 ?_ (_, _)
    List.mem_cons_self (unlocks_of_prompt rfl rfl)
  intro step hmem _
  rw [List.nil_append, List.mem_singleton] at hmem
  rw [hmem]
  exact fun _ _ _ _ _ _ => .inr rfl

/-! ## A timeout that is left over -/

section

variable (host : Host) (view : View) (c : AutoLockController)

theorem small_lock (vault : Vault) : ∃ view',
    (Session.mk host (smallApp false false .workspace (some vault) "a" view c)).Handles smallFrontend
      (press (.other 0)) host
      (.returned (smallApp false false .lockScreen none "a" view' (c.registerActivity 0))) :=
  ⟨_, .ask (a := (0 : Nat)) rfl .done⟩

theorem small_leave :
    (Session.mk host (smallApp false false .lockScreen none "a" view c)).Handles smallFrontend (press .esc) host
      (.returned (smallApp false false .unlockList none "a" { view with listIndex := 0 } (c.registerActivity 0))) :=
  .ask (a := (0 : Nat)) rfl .done

theorem small_next :
    (Session.mk host (smallApp false false .unlockList none "a" { view with listIndex := 0 } c)).Handles smallFrontend
      (press .down) host
      (.returned (smallApp false false .unlockList none "a" { view with listIndex := 1 } (c.registerActivity 0))) :=
  .ask (a := (0 : Nat)) rfl .done

theorem small_choose :
    (Session.mk host (smallApp false false .unlockList none "a" { view with listIndex := 1 } c)).Handles smallFrontend
      (press .enter) host (.returned
        (smallApp false false (.unlockPrompt "b" {} 0) none "b" { view with listIndex := 1 } (c.registerActivity 0))) :=
  .ask (a := (0 : Nat)) rfl .done

theorem small_unlock_second (hfile : "/b" ∈ host.vaultFiles) : ∃ view',
    (Session.mk host (smallApp false false (.unlockPrompt "b" {} 0) none "b" view c)).Handles smallFrontend
      (press .enter) { host with opened := some (smallVault "/b") }
      (.returned (smallApp false false .workspace (some (smallVault "/b")) "b" view'
        ((c.registerActivity 0).unlock 0))) :=
  ⟨_, .ask (a := (0 : Nat)) rfl (.ask (exec_openVault (v := smallVault "/b") hfile) (.ask (a := (0 : Nat)) rfl .done))⟩

end

/-- The first vault is unlocked and locked, then the second, which sets no timeout, is unlocked: it locks after the
minute of the first. -/
theorem timeout_left_over : ¬ ∀ (start t : Session Unit) steps, start.Starts → Run smallFrontend start steps t →
    ∀ step ∈ steps, step.1.Unlocks step.2 → step.1.LocksByItsOwn step.2 := by
  intro claim
  obtain ⟨view, unlock⟩ := small_unlock false small_files.1 smallView { config := .default }
  obtain ⟨view', lock⟩ := small_lock { smallHost with opened := some (smallVault "/a") } view
    { config := ⟨fromSecs 60⟩, lastActivity := some 0 } (smallVault "/a")
  obtain ⟨view'', second⟩ := small_unlock_second { smallHost with opened := some (smallVault "/a") }
    { view' with listIndex := 1 } { config := ⟨fromSecs 60⟩, lastActivity := some 0 } small_files.2
  have run : Run smallFrontend (smallStart false false) [] (smallStart false false) := .nil
  have run := (run.step (.event unlock)).step (.event lock)
  have run := ((run.step (.event (small_leave _ _ _))).step (.event (small_next _ _ _))).step
    (.event (small_choose _ _ _))
  have run := run.step (.event second)
  obtain ⟨registry, name, hregistry, hname, hown⟩ :=
    claim _ _ _ (small_starts false false) run (_, _) (List.mem_append_right _ (List.mem_singleton_self _))
      (unlocks_of_prompt rfl rfl)
  cases hregistry
  cases hname
  have hown : (⟨fromSecs 60⟩ : AutoLockConfig) = ownTimeout smallRegistry "b" := hown
  exact absurd hown (by decide +kernel)

end Session

end Falach.Tui
