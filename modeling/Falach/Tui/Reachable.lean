import Falach.Tui.Collecting
/-!
# What holds in all sessions

From start-up on, whatever the events, the answers and the workers are: the state stays valid, so that every step is one
of the effects of an event, or a step of a worker.
-/

namespace Falach.Tui

open Keepass Program

variable {Form : Type} {fe : Frontend Form}

/-! ## Effects keep a state valid -/

section

variable {h h' : Host} {c c' : Core}

theorem Core.Valid.of_vault (hv : c.Valid) (hvault : c.vault.isSome) : c.inflight = none ∧ c.phase = .workspace := by
  have hin : c.inflight = none := by
    by_contra hin
    rw [(hv.away hin).2.1] at hvault
    cases hvault
  exact ⟨hin, (hv.home hin).2.1.1 hvault⟩

theorem Sends.valid (hs : Sends h c h' c') (hv : c.Valid) : c'.Valid := by
  cases hs with
  | stays => exact hv
  | spawned _ hvault _ =>
    have hp := (hv.of_vault (by rw [hvault]; rfl)).2
    exact ⟨nofun, fun _ => ⟨hp, rfl, rfl⟩⟩

theorem Effect.valid (he : Effect h c h' c') (hv : c.Valid) : c'.Valid := by
  cases he with
  | left hs => exact hs.valid hv
  | moved hp hp' =>
    have hin := hv.inflight_none hp
    obtain ⟨hr, hvault, hlock⟩ := hv.home hin
    have hnone : ¬ c.vault.isSome = true := fun h => hp (hvault.1 h)
    exact ⟨fun _ => ⟨hr, iff_of_false hnone hp', hlock⟩, fun hin' => absurd hin hin'⟩
  | unlocked hp _ hs =>
    have hin := hv.inflight_none (by rw [hp]; exact nofun)
    refine hs.valid ⟨fun _ => ⟨(hv.home hin).1, iff_of_true rfl rfl, (hv.home hin).2.2⟩, fun hin' => absurd hin hin'⟩
  | edited _ hpath _ =>
    have hsome : ∀ v v' : Option Vault, v.map (·.path) = v'.map (·.path) → (v.isSome ↔ v'.isSome) := fun v v' h => by
      rw [← Option.isSome_map (f := fun v : Vault => v.path), h, Option.isSome_map]
    refine ⟨fun hin => ?_, fun hin => ?_⟩
    · obtain ⟨hr, hvault, hlock⟩ := hv.home hin
      exact ⟨hr, (hsome _ _ hpath).trans hvault, hlock⟩
    · obtain ⟨hp, hvault, hr⟩ := hv.away hin
      rw [hvault] at hpath
      exact ⟨hp, Option.map_eq_none_iff.1 hpath, hr⟩
  | configured _ hr hr' =>
    refine ⟨fun hin => ⟨hr', (hv.home hin).2⟩, fun hin => ?_⟩
    rw [(hv.away hin).2.2] at hr
    cases hr
  | locked hin =>
    exact ⟨fun _ => ⟨(hv.home hin).1, iff_of_false nofun nofun, (hv.home hin).2.2⟩, fun hin' => absurd hin hin'⟩
  | deferred hin =>
    have hin' : c.inflight ≠ none := Option.isSome_iff_ne_none.1 hin
    exact ⟨fun hnone => absurd hnone hin', hv.away⟩
  | pending hin _ _ _ =>
    have hin' : c.inflight ≠ none := by rw [hin]; exact nofun
    exact ⟨fun hnone => absurd hnone hin', hv.away⟩
  | collected _ _ _ => exact ⟨fun _ => ⟨rfl, iff_of_false nofun nofun, rfl⟩, fun hin' => absurd rfl hin'⟩
  | handedBack hin _ _ hlock =>
    have hp := (hv.away (by rw [hin]; exact nofun)).1
    exact ⟨fun _ => ⟨rfl, iff_of_true rfl hp, hlock⟩, fun hin' => absurd rfl hin'⟩

/-! ## The workers -/

theorem Host.Sound.set {workers : List Worker} (hs : ∀ w ∈ workers, w.Sound) {i : Nat} {w : Worker} (hw : w.Sound) :
    ∀ w' ∈ workers.set i w, w'.Sound := fun _ hmem =>
  (List.mem_or_eq_of_mem_set hmem).elim (hs _) fun heq => heq ▸ hw

theorem Sends.sound (hs : Sends h c h' c') (hh : h.Sound) : h'.Sound := by
  cases hs with
  | stays => exact hh
  | spawned _ _ _ =>
    intro w hmem
    rcases List.mem_append.1 hmem with hmem | hmem
    · exact hh w hmem
    · cases List.mem_singleton.1 hmem
      exact List.not_mem_nil

theorem Effect.sound (he : Effect h c h' c') (hh : h.Sound) : h'.Sound := by
  cases he with
  | left hs => exact hs.sound hh
  | moved _ _ => exact hh
  | unlocked _ _ hs => exact hs.sound hh
  | edited _ _ _ => exact hh
  | configured _ _ _ => exact hh
  | locked _ => exact hh
  | deferred _ => exact hh
  | pending _ _ _ _ => exact Host.Sound.set hh List.not_mem_nil
  | collected _ _ _ => exact Host.Sound.set hh List.not_mem_nil
  | handedBack _ _ _ _ => exact Host.Sound.set hh List.not_mem_nil

theorem Host.Work.sound (hw : h.Work h') (hh : h.Sound) : h'.Sound := by
  have appended : ∀ {i : Nat} {w : Worker}, h.workers[i]? = some w → ∀ msg, msg ≠ SyncMsg.workerLost → ∀ job : Job,
      ({ w with job := job, queue := w.queue ++ [msg] } : Worker).Sound := fun hi msg hmsg job hmem =>
    (List.mem_append.1 hmem).elim (hh _ (List.mem_of_getElem? hi)) fun hmem => hmsg (List.mem_singleton.1 hmem).symm
  have unsent : ∀ {i : Nat} {w : Worker}, h.workers[i]? = some w → ∀ job : Job,
      ({ w with job := job } : Worker).Sound := fun {_ w} hi _ => hh w (List.mem_of_getElem? hi)
  cases hw with
  | sync hi _ _ => exact Host.Sound.set hh (unsent hi _)
  | activity hi _ => exact Host.Sound.set hh (appended hi .activity nofun _)
  | @done i w v r outcome hi _ => exact Host.Sound.set hh (appended hi (.done ⟨v, r, outcome, w.trigger⟩) nofun _)
  | panic hi _ => exact Host.Sound.set hh (unsent hi _)

end

/-! ## Sessions -/

namespace App

/-- An application that has started is locked, and no sync is in flight. -/
structure Fresh (app : App Form) : Prop where
  phase : app.phase ≠ .workspace
  vault : app.vault = none
  registry : app.registry.isSome
  timeout : app.controller.config = .default
  overlay : app.overlay = none
  inflight : app.inflight = none
  lockPending : app.lockPending = false

theorem fresh_of_new {launch : Launch} {app : App Form} (h : App.new launch = .ok app) : app.Fresh := by
  obtain ⟨built, hbuilt, happ⟩ := Loop.bind_ok.1 h
  unfold fromRegistry at hbuilt
  split at hbuilt
  · cases hbuilt
  · split at hbuilt
    · cases hbuilt
    · rename_i controller hnew
      cases hbuilt
      have htimeout : controller.config = .default := by
        cases hnew
        rfl
      unfold applyArgs at happ
      dsimp only at happ
      split at happ
      · cases happ
        exact ⟨nofun, rfl, rfl, htimeout, rfl, rfl, rfl⟩
      · split at happ
        · cases happ
        · cases happ
          exact ⟨nofun, rfl, rfl, htimeout, rfl, rfl, rfl⟩

theorem Fresh.valid {app : App Form} (hf : app.Fresh) : app.core.Valid :=
  ⟨fun _ => ⟨hf.registry, iff_of_false (by rw [show app.core.vault = none from hf.vault]; exact nofun) hf.phase,
    hf.lockPending⟩, fun hin => absurd hf.inflight hin⟩

theorem Fresh.guarded {app : App Form} (hf : app.Fresh) : app.Guarded := guarded_of_none hf.overlay

end App

namespace Session

structure Valid (s : Session Form) : Prop where
  core : s.app.core.Valid
  guarded : s.app.Guarded
  sound : s.host.Sound

variable {s s' start : Session Form}

theorem Starts.valid (hs : start.Starts) : start.Valid := by
  obtain ⟨launch, hnew⟩ := hs.app
  have hf := App.fresh_of_new hnew
  exact ⟨hf.valid, hf.guarded, fun w hw => by rw [hs.workers] at hw; cases hw⟩

/-- How an event is handled from a valid state. -/
theorem Valid.ends (hv : s.Valid) (event : Event) :
    Ends (s.app.readOnly = false) s.host (Does s.host s.app) (s.app.on fe event) :=
  App.on_does fe s.host id hv.core hv.guarded hv.sound event

/-- What a step does, in one case for events and one for workers. -/
theorem Valid.step_cases (hv : s.Valid) (h : Step fe s s') :
    Does s.host s.app s'.host s'.app ∨ s.host.Work s'.host ∧ s'.app = s.app := by
  cases h with
  | event h => exact .inl (Upholds.returned (hv.ends _) h)
  | work h => exact .inr ⟨h, rfl⟩

theorem Valid.step (hv : s.Valid) (h : Step fe s s') : s'.Valid := by
  rcases hv.step_cases h with hd | ⟨hw, happ⟩
  · exact ⟨hd.effect.valid hv.core, hd.guarded, hd.effect.sound hv.sound⟩
  · exact ⟨happ ▸ hv.core, happ ▸ hv.guarded, hw.sound hv.sound⟩

/-- In all states a session reaches it is valid. -/
theorem Starts.reaches (hs : start.Starts) (hr : Reaches fe start s) : s.Valid := by
  induction hr with
  | refl => exact hs.valid
  | tail _ hstep ih => exact ih.step hstep

/-- What every effect and every step of a worker keeps holds in all of them. -/
theorem Starts.invariant {I : Host → Core → Prop} (hs : start.Starts) (hI : I start.host start.app.core)
    (effect : ∀ {h c h' c'}, c.Valid → I h c → Effect h c h' c' → I h' c')
    (work : ∀ {h c h'}, c.Valid → I h c → h.Work h' → I h' c) (hr : Reaches fe start s) : I s.host s.app.core := by
  induction hr with
  | refl => exact hI
  | tail hr hstep ih =>
    have hv := hs.reaches hr
    rcases hv.step_cases hstep with hd | ⟨hw, happ⟩
    · exact effect hv.core ih hd.effect
    · exact happ ▸ work hv.core ih hw

/-- The steps of a run, each with the states around it. -/
inductive Run (fe : Frontend Form) (start : Session Form) : List (Session Form × Session Form) → Session Form →
    Prop where
  | nil : Run fe start [] start
  | step {steps : List (Session Form × Session Form)} {t t' : Session Form} : Run fe start steps t → Step fe t t' →
      Run fe start (steps ++ [(t, t')]) t'

/-- Every step of a run is one from a state that was reached. -/
theorem Run.steps {steps : List (Session Form × Session Form)} {t : Session Form} (run : Run fe start steps t) :
    Reaches fe start t ∧ ∀ step ∈ steps, Reaches fe start step.1 ∧ Step fe step.1 step.2 := by
  induction run with
  | nil => exact ⟨.refl, fun _ hmem => absurd hmem List.not_mem_nil⟩
  | step _ hstep ih =>
    refine ⟨ih.1.tail hstep, fun step hmem => ?_⟩
    rcases List.mem_append.1 hmem with hmem | hmem
    · exact ih.2 step hmem
    · rw [List.mem_singleton.1 hmem]
      exact ⟨ih.1, hstep⟩

end Session

/-! ## A small session -/

/-- A frontend that knows three keys and shows nothing. -/
def smallFrontend : Frontend Unit where
  isBound cmd key :=
    match cmd with
    | .confirm => key.code = .enter
    | .next => key.code = .down
    | .lockNow => key.code = .other 0
    | _ => false
  resolve _ pending := (.none, pending)
  handle _ _ := none
  buildRows _ _ _ := []
  nodePath _ _ := none
  search _ _ _ _ := []
  detailLines _ _ _ := none
  groupChoices _ := []
  paletteOrder _ := []
  themeNames := []
  wantsLight _ := false
  newForm := ()
  formOf _ := ()
  generating _ := false
  typed _ _ := ()
  snapshot _ := none
  fromOtpauthUri _ := .ok ()
  encryptCredential _ _ := none
  toml := ⟨fun _ => none, fun _ => .error ""⟩
  codec := ⟨fun _ => .other "", fun _ => some { kind := .s3 }⟩

def smallVault (path : String) : Vault :=
  ⟨path, { config := ⟨.aes 1⟩, root := 0, groups := (∅ : HashMap GroupId Group).insert 0 { id := 0, parent := none } }⟩

/-- Two vaults. The first has a timeout of a minute and a remote. -/
def smallRegistry : Registry where
  version := schemaVersion
  vaults := [
    { name := "a", path := "/a", createdAt := "", extra :=
        (VaultLockConfig.applyIdleTimeout (some 60) .empty).insert syncKey (.other "") syncKey_unregistered },
    { name := "b", path := "/b", createdAt := "" }]
  extraTopLevel := .empty
  baseline := none

def smallHost : Host where
  vaultFiles := ((∅ : HashMap String Bytes).insert "/a" []).insert "/b" []
  vaultsToml := none
  remote := ∅

/-- The application with one of these vaults. -/
def smallApp (readOnly syncs : Bool) (phase : Phase) (vault : Option Vault) (name : String) (view : View)
    (controller : AutoLockController) : App Unit :=
  { phase := phase, vault := vault, registry := some smallRegistry, userConfig := { syncOnUnlock := syncs },
    controller := controller, readOnly := readOnly, selectedVault := some name, view := view }

def smallView : View := { tabs := .withPins [] }

/-- It starts with the prompt of the first vault. -/
def smallStart (readOnly syncs : Bool) : Session Unit :=
  ⟨smallHost, smallApp readOnly syncs (.unlockPrompt "a" {} 0) none "a" smallView { config := .default }⟩

theorem small_starts (readOnly syncs : Bool) : (smallStart readOnly syncs).Starts :=
  ⟨⟨⟨smallRegistry, ∅, { syncOnUnlock := syncs }, false, true, readOnly, some "a"⟩, rfl⟩, rfl, rfl⟩

theorem small_files : "/a" ∈ smallHost.vaultFiles ∧ "/b" ∈ smallHost.vaultFiles := by decide +kernel

def press (code : KeyCode) : Event := .key { code := code }

theorem exec_openVault {h : Host} {password : Text} {v : Vault} (hfile : v.path ∈ h.vaultFiles) :
    h.Exec (.openVault v.path password) (.ok v) { h with opened := some v } := ⟨rfl, hfile, rfl⟩

/-- The right password for the first vault. -/
theorem small_unlock (readOnly : Bool) {host : Host} (hfile : "/a" ∈ host.vaultFiles) (view : View)
    (c : AutoLockController) : ∃ view',
      (Session.mk host (smallApp readOnly false (.unlockPrompt "a" {} 0) none "a" view c)).Handles smallFrontend
        (press .enter) { host with opened := some (smallVault "/a") }
        (.returned (smallApp readOnly false .workspace (some (smallVault "/a")) "a" view'
          { config := ⟨fromSecs 60⟩, lastActivity := some 0 })) :=
  ⟨_, .ask (a := (0 : Nat)) rfl (.ask (exec_openVault (v := smallVault "/a") hfile) (.ask (a := (0 : Nat)) rfl .done))⟩

end Falach.Tui
