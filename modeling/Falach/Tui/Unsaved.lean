import Falach.Tui.Reachable
/-!
# Unsaved edits

There is one place for an overlay, and the keys that quit and lock come before the overlay that is open. What was
typed into a form stays in it through every event but one: a quit or a lock that asks for something first does so in
the place of the form.
-/

namespace Falach.Tui

open Keepass Program

variable {Form : Type}

namespace App

variable (fe : Frontend Form) (app : App Form)

/-- The form is open, with this in it. -/
def FormOpen (form : Form) : Prop := ∃ state, app.overlay = some (.edit state) ∧ state.form = form

/-- A key that is handled before any overlay sees it. -/
def IsGlobal (key : Key) : Prop := fe.isBound .quit key = true ∨ fe.isBound .lockNow key = true ∧ app.phase = .workspace

/-- A quit asks first: to confirm it, or for the password to sync with. -/
def QuitAsks : Prop :=
  app.userConfig.confirmQuit = true ∨ app.phase = .workspace ∧ ¬ app.isSyncing ∧ app.shouldSyncOnLeave fe = true

/-- A lock asks first for the password to sync with. -/
def LockAsks : Prop := ¬ app.isSyncing ∧ app.shouldSyncOnLeave fe = true

/-- The event opens another overlay in the place of the one that is open. -/
def Covers : Event → Prop
  | .key key => key.press ∧
    (fe.isBound .quit key = true ∧ app.QuitAsks fe ∨
      fe.isBound .quit key = false ∧ fe.isBound .lockNow key = true ∧ app.phase = .workspace ∧ app.LockAsks fe)
  | _ => False

instance (key : Key) : Decidable (app.IsGlobal fe key) := inferInstanceAs (Decidable (_ ∨ _))

/-- The form after the event: a key that is not global is typed into it, unless it saves the form. -/
def formAfter (form : Form) : Event → Form
  | .key key =>
    if key.press ∧ ¬ app.IsGlobal fe key ∧ (fe.generating form ∨ ¬ (key.control ∧ key.code = .char 's'))
    then fe.typed form key else form
  | _ => form

/-- What ends the editing: `Esc` in the form, a save that succeeds, a lock, or a quit. -/
inductive Ends (form : Form) : Event → App Form → Prop where
  | cancelled {key : Key} {app' : App Form} : key.press → ¬ app.IsGlobal fe key → ¬ fe.generating form →
      key.code = .esc →
      Ends form (.key key) app'
  | saved {key : Key} {state state' : EditState Form} {now : Instant} {host host' : Host} {app' : App Form} :
      state.form = form → key.control = true → key.code = .char 's' →
      Runs Host.Exec (fun _ _ => False) host
        (App.performSave fe { app with controller := app.controller.registerActivity now, overlay := none } state) host'
        (.returned (true, state', app')) →
      Ends form (.key key) app'
  | locked {event : Event} {app' : App Form} : app'.phase = .lockScreen → app'.vault = none → Ends form event app'
  | quit {event : Event} {app' : App Form} : app'.shouldQuit = true → Ends form event app'

/-! ## Parts of an event -/

variable {fe app} {host host' : Host} {app' : App Form} {panics : Host → AppOp → Prop}

/-- Moving about leaves the overlay alone. -/
theorem execContextNav_overlay {cmd : Command} (hcmd : cmd = .next ∨ cmd = .prev)
    (run : Runs Host.Exec panics host (app.execContextNav fe cmd) host' (.returned app')) :
    app'.overlay = app.overlay := by
  unfold execContextNav at run
  split at run
  · unfold unlockListNav at run
    obtain ⟨registry, h₁, -, run⟩ := run.bind
    dsimp only at run
    split at run
    · rw [run.eq_of_done]
    · rcases hcmd with rfl | rfl
      · rw [run.eq_of_done]
        rfl
      · rw [run.eq_of_done]
        rfl
  · split at run
    · split at run
      · unfold treeCommand at run
        split at run
        · rw [run.eq_of_done]
        · rcases hcmd with rfl | rfl
          · rw [run.eq_of_done]
            rfl
          · rw [run.eq_of_done]
            rfl
      · rw [run.eq_of_done]
        rfl
    · rw [run.eq_of_done]
      rfl
    · unfold settingsCommand at run
      rcases hcmd with rfl | rfl
      · rw [run.eq_of_done]
        rfl
      · rw [run.eq_of_done]
        rfl
  · rw [run.eq_of_done]
  · rw [run.eq_of_done]

/-- A save, whether it succeeds or not, leaves the fields of the form alone. -/
theorem performSave_form {state state' : EditState Form} {saved : Bool}
    (run : Runs Host.Exec panics host (app.performSave fe state) host' (.returned (saved, state', app'))) :
    state'.form = state.form := by
  unfold performSave at run
  split at run
  · obtain ⟨⟨result, v⟩, h₁, -, run⟩ := run.bind
    cases result with
    | error e =>
      cases run.eq_of_done
      rfl
    | ok uuid =>
      obtain ⟨result, h₂, -, run⟩ := run.bind
      cases result with
      | error e =>
        cases run.eq_of_done
        rfl
      | ok _ =>
        obtain ⟨app₁, h₃, -, run⟩ := run.bind
        cases run.eq_of_done
        rfl
  · cases run.eq_of_done
    rfl

/-- Drawing changes nothing while a form is open. -/
theorem render_form {viewport : Option Nat} {state : EditState Form} (hopen : app.overlay = some (.edit state))
    (run : Runs Host.Exec panics host (app.render viewport) host' (.returned app')) : app' = app := by
  obtain ⟨_, h₁, -, run⟩ := run.bind
  rw [hopen] at run
  exact run.eq_of_done

theorem executeCommand_quit (count : Option Nat) : app.executeCommand fe .quit count = return app.requestQuit fe := by
  unfold executeCommand
  exact if_neg fun h => absurd h.2 (by decide)

theorem executeCommand_lockNow (hp : app.phase = .workspace) (count : Option Nat) :
    app.executeCommand fe .lockNow count = return app.requestLock fe := by
  unfold executeCommand
  refine (if_neg fun h => absurd h.2 (by decide)).trans ?_
  exact if_pos hp

/-- A quit that asks takes the place of the form; one that does not ends the session. -/
theorem requestQuit_form (fe : Frontend Form) (app : App Form) :
    (app.QuitAsks fe → ∀ form, ¬ (app.requestQuit fe).FormOpen form) ∧
    (¬ app.QuitAsks fe → (app.requestQuit fe).shouldQuit = true) := by
  unfold QuitAsks requestQuit doQuit
  refine ⟨fun h form => ?_, fun h => ?_⟩
  · rintro ⟨state, hopen, -⟩
    split_ifs at hopen with hconfirm hleave
    · cases hopen
    · cases hopen
    · exact h.elim hconfirm hleave
  · rw [not_or] at h
    rw [if_neg h.1, if_neg h.2]

/-- A lock that asks takes the place of the form; one that does not locks, when no sync is in flight. -/
theorem requestLock_form (fe : Frontend Form) (app : App Form) (hin : app.inflight = none) :
    (app.LockAsks fe → ∀ form, ¬ (app.requestLock fe).FormOpen form) ∧
    (¬ app.LockAsks fe → (app.requestLock fe).phase = .lockScreen ∧ (app.requestLock fe).vault = none) := by
  have hidle : ¬ app.isSyncing = true := by
    unfold isSyncing
    rw [hin]
    exact nofun
  unfold LockAsks requestLock
  refine ⟨fun h form => ?_, fun h => ?_⟩
  · rintro ⟨state, hopen, -⟩
    rw [if_neg hidle, if_pos h.2] at hopen
    cases hopen
  · rw [if_neg hidle, if_neg fun hleave => h ⟨hidle, hleave⟩]
    exact ⟨rfl, rfl⟩

/-- The overlay of the form handles a key. -/
theorem onEditKey_form {state : EditState Form} {key : Key} {now : Instant} (hpress : key.press = true)
    (hlocal : ¬ app.IsGlobal fe key)
    (run : Runs Host.Exec (fun _ _ => False) host
      (App.onOverlayKey fe { app with controller := app.controller.registerActivity now } (.edit state) key) host'
      (.returned app')) :
    app.Ends fe state.form (.key key) app' ∨ app'.FormOpen (app.formAfter fe state.form (.key key)) := by
  obtain ⟨⟨kept, app₁⟩, h₁, handled, run⟩ := run.bind
  have hafter : app.formAfter fe state.form (.key key) =
      if fe.generating state.form = true ∨ ¬ (key.control = true ∧ key.code = .char 's') then fe.typed state.form key
      else state.form := if_congr (by simp [hpress, hlocal]) rfl rfl
  change Runs _ _ _ (App.onEditKey fe _ state key) _ _ at handled
  unfold onEditKey at handled
  dsimp only at handled
  rw [hafter]
  by_cases hgen : fe.generating state.form = true
  · rw [if_pos hgen] at handled
    rw [if_pos (.inl hgen)]
    cases handled.eq_of_done
    rw [run.eq_of_done]
    exact .inr ⟨_, rfl, rfl⟩
  rw [if_neg hgen] at handled
  by_cases hesc : key.code = .esc
  · exact .inl (.cancelled hpress hlocal hgen hesc)
  rw [if_neg hesc] at handled
  by_cases hsave : key.control = true ∧ key.code = .char 's'
  · rw [if_pos hsave] at handled
    rw [if_neg (by rintro (h | h); exacts [hgen h, h hsave])]
    obtain ⟨⟨saved, state', app₂⟩, h₂, save, handled⟩ := handled.bind
    cases saved with
    | false =>
      cases handled.eq_of_done
      rw [run.eq_of_done]
      exact .inr ⟨_, rfl, performSave_form save⟩
    | true =>
      cases handled.eq_of_done
      cases run.eq_of_done
      exact .inl (.saved rfl hsave.1 hsave.2 save)
  · rw [if_neg hsave] at handled
    rw [if_pos (.inr hsave)]
    cases handled.eq_of_done
    rw [run.eq_of_done]
    exact .inr ⟨_, rfl, rfl⟩

/-! ## One event -/

/-- What an event makes of an open form. -/
structure FormStep (fe : Frontend Form) (app : App Form) (form : Form) (event : Event) (app' : App Form) : Prop where
  kept : ¬ app.Covers fe event → app.Ends fe form event app' ∨ app'.FormOpen (app.formAfter fe form event)
  covered : app.Covers fe event → ∀ form, ¬ app'.FormOpen form

theorem FormStep.of_kept {form : Form} {event : Event} (hc : ¬ app.Covers fe event)
    (h : app.Ends fe form event app' ∨ app'.FormOpen (app.formAfter fe form event)) :
    App.FormStep fe app form event app' :=
  ⟨fun _ => h, fun h => absurd h hc⟩

theorem key_form {state : EditState Form} (hopen : app.overlay = some (.edit state)) (hin : app.inflight = none)
    {key : Key}
    (run : Runs Host.Exec (fun _ _ => False) host (app.on fe (.key key)) host' (.returned app')) :
    App.FormStep fe app state.form (.key key) app' := by
  obtain ⟨now, h₁, -, run⟩ := run.request
  dsimp only at run
  by_cases hpress : key.press = true
  · rw [if_pos hpress] at run
    unfold handleKey at run
    rw [if_neg (not_not.2 hpress)] at run
    by_cases hq : fe.isBound .quit key = true
    · rw [if_pos hq, executeCommand_quit] at run
      obtain ⟨hasks, hends⟩ := requestQuit_form fe { app with controller := app.controller.registerActivity now }
      rw [run.eq_of_done]
      refine ⟨fun hc => .inl (.quit (hends fun h => hc ⟨hpress, .inl ⟨hq, h⟩⟩)), ?_⟩
      rintro ⟨-, ⟨-, h⟩ | ⟨h, -⟩⟩
      · exact hasks h
      · rw [hq] at h
        cases h
    rw [if_neg hq] at run
    by_cases hl : fe.isBound .lockNow key = true ∧ app.phase = .workspace
    · rw [if_pos hl, executeCommand_lockNow (by exact hl.2)] at run
      obtain ⟨hasks, hends⟩ := requestLock_form fe { app with controller := app.controller.registerActivity now } hin
      rw [run.eq_of_done]
      refine ⟨fun hc => .inl ?_, ?_⟩
      · obtain ⟨hphase, hvault⟩ := hends fun h => hc ⟨hpress, .inr ⟨by simpa using hq, hl.1, hl.2, h⟩⟩
        exact .locked hphase hvault
      · rintro ⟨-, ⟨h, -⟩ | ⟨-, -, -, h⟩⟩
        · exact absurd h hq
        · exact hasks h
    rw [if_neg hl] at run
    -- neither quit nor lock: the key goes to the form
    have hlocal : ¬ app.IsGlobal fe key := by
      rintro (h | h)
      · exact hq h
      · exact hl h
    refine .of_kept ?_ ?_
    · rintro ⟨-, ⟨h, -⟩ | ⟨-, h, hp, -⟩⟩
      · exact hq h
      · exact hl ⟨h, hp⟩
    · dsimp only at run
      rw [hopen] at run
      exact onEditKey_form hpress hlocal run
  · rw [if_neg hpress] at run
    unfold handleKey at run
    rw [if_pos hpress] at run
    rw [run.eq_of_done]
    refine .of_kept (fun h => hpress h.1) (.inr ⟨state, hopen, ?_⟩)
    exact (if_neg fun h => hpress h.1).symm

/-- While a form is open the mouse hits nothing but rows of overlays that are not there. -/
theorem mouseTarget_form (app : App Form) {state : EditState Form} (hopen : app.overlay = some (.edit state))
    (hit : Option MouseTarget) :
    app.mouseTarget hit = none ∨ ∃ i, app.mouseTarget hit = some (.searchRow i) ∨
      app.mouseTarget hit = some (.paletteRow i) := by
  unfold mouseTarget
  rw [hopen]
  split_ifs with hp hnone
  · exact .inl rfl
  · cases hnone
  · split
    · exact .inr ⟨_, .inl rfl⟩
    · exact .inr ⟨_, .inr rfl⟩
    · exact .inl rfl

theorem mouseScroll_form (app : App Form) {state : EditState Form} (hopen : app.overlay = some (.edit state))
    {hit : Option MouseTarget}
    {down : Bool} (run : Runs Host.Exec (fun _ _ => False) host (app.mouseScroll fe hit down) host' (.returned app')) :
    app'.overlay = some (.edit state) := by
  have hcmd : (if down = true then Command.next else .prev) = .next ∨
    (if down = true then Command.next else .prev) = .prev := by
    cases down
    · exact .inr rfl
    · exact .inl rfl
  unfold mouseScroll at run
  rcases mouseTarget_form app hopen hit with h | ⟨i, h | h⟩
  · simp only [h] at run
    obtain ⟨app₁, h₁, first, run⟩ := run.bind
    obtain ⟨app₂, h₂, second, third⟩ := run.bind
    rw [execContextNav_overlay hcmd third, execContextNav_overlay hcmd second, execContextNav_overlay hcmd first, hopen]
  · simp only [h, hopen] at run
    rw [run.eq_of_done, hopen]
  · simp only [h, hopen] at run
    rw [run.eq_of_done, hopen]

theorem mouse_form {state : EditState Form} (hopen : app.overlay = some (.edit state)) {event : MouseEvent}
    (run : Runs Host.Exec (fun _ _ => False) host (app.on fe (.mouse event)) host' (.returned app')) :
    app'.overlay = some (.edit state) := by
  obtain ⟨now, h₁, -, run⟩ := run.request
  unfold handleMouse at run
  split at run
  · rw [run.eq_of_done]
    exact hopen
  · split at run
    · rcases mouseTarget_form { app with controller := app.controller.registerActivity now } hopen event.hit with
        h | ⟨i, h | h⟩
      · rw [h] at run
        rw [run.eq_of_done]
        exact hopen
      · rw [h] at run
        simp only [applyMouseTarget, hopen] at run
        rw [run.eq_of_done]
      · rw [h] at run
        simp only [applyMouseTarget, hopen] at run
        rw [run.eq_of_done]
    · exact mouseScroll_form { app with controller := app.controller.registerActivity now } hopen run
    · exact mouseScroll_form { app with controller := app.controller.registerActivity now } hopen run
    · rw [run.eq_of_done]
      exact hopen

/-- A tick locks or leaves the form open. -/
theorem tick_form {state : EditState Form} (hopen : app.overlay = some (.edit state)) (hin : app.inflight = none)
    {now : Instant}
    (run : Runs Host.Exec (fun _ _ => False) host (app.on fe (.tick now)) host' (.returned app')) :
    app'.phase = .lockScreen ∧ app'.vault = none ∨ app'.overlay = some (.edit state) := by
  change Runs _ _ _ (app.tick fe now) _ _ at run
  unfold tick drain at run
  simp only [hin] at run
  rw [run.eq_of_done]
  unfold idle
  dsimp only
  split_ifs
  · exact .inl ⟨rfl, rfl⟩
  · exact .inr hopen
  · exact .inr hopen
  · exact .inr hopen

/-- What any event makes of an open form. -/
theorem on_form {state : EditState Form} (hopen : app.overlay = some (.edit state)) (hin : app.inflight = none)
    {event : Event}
    (run : Runs Host.Exec (fun _ _ => False) host (app.on fe event) host' (.returned app')) :
    App.FormStep fe app state.form event app' := by
  cases event with
  | key key => exact key_form hopen hin run
  | tick now =>
    refine .of_kept id ?_
    rcases tick_form hopen hin run with ⟨hphase, hvault⟩ | h
    · exact .inl (.locked hphase hvault)
    · exact .inr ⟨state, h, rfl⟩
  | render viewport => exact .of_kept id (.inr ⟨state, by rw [render_form hopen run, hopen], rfl⟩)
  | mouse event => exact .of_kept id (.inr ⟨state, mouse_form hopen run, rfl⟩)
  | other => exact .of_kept id (.inr ⟨state, by rw [run.eq_of_done, hopen], rfl⟩)

end App

/-! ## Runs -/

namespace Session

variable {fe : Frontend Form} {start s t : Session Form}

/-- A run in which nothing ends the editing: each event, with the application it came to. -/
inductive Edits (fe : Frontend Form) (s : Session Form) : List (App Form × Event) → Session Form → Prop where
  | nil : Edits fe s [] s
  | event {steps : List (App Form × Event)} {t : Session Form} {event : Event} {host : Host} {app : App Form} :
      Edits fe s steps t → t.Handles fe event host (.returned app) →
      (∀ form, t.app.FormOpen form → ¬ t.app.Ends fe form event app) →
        Edits fe s (steps ++ [(t.app, event)]) ⟨host, app⟩
  | work {steps : List (App Form × Event)} {t : Session Form} {host : Host} :
      Edits fe s steps t → t.host.Work host → Edits fe s steps ⟨host, t.app⟩

/-- What is in the form after these events. -/
def typedIn (fe : Frontend Form) (steps : List (App Form × Event)) (form : Form) : Form :=
  steps.foldl (fun form p => p.1.formAfter fe form p.2) form

theorem Edits.reaches {steps : List (App Form × Event)} (run : Edits fe s steps t) : Reaches fe s t := by
  induction run with
  | nil => exact .refl
  | event _ handles _ ih => exact ih.tail (.event handles)
  | work _ work ih => exact ih.tail (.work work)

/-- In a state that is reached a form is open only while no sync is in flight. -/
theorem Starts.form_idle (hs : start.Starts) (hr : Reaches fe start s) {state : EditState Form}
    (hopen : s.app.overlay = some (.edit state)) : s.app.inflight = none := by
  refine ((hs.reaches hr).guarded ?_).2
  unfold App.writing
  rw [hopen]
  rfl

/-- In every run in which nothing ends the editing, the form and all that was typed in it stay open as long as no
event opens another overlay in its place; and an event that does not end the editing keeps the form if and only if it
opens none. -/
theorem form_stays_iff (hs : start.Starts) (hr : Reaches fe start s) {form : Form} (hopen : s.app.FormOpen form)
    {steps : List (App Form × Event)} (run : Edits fe s steps t) (huncovered : ∀ p ∈ steps, ¬ p.1.Covers fe p.2) :
    t.app.FormOpen (typedIn fe steps form) ∧
    ∀ event host app, t.Handles fe event host (.returned app) →
      ¬ t.app.Ends fe (typedIn fe steps form) event app →
      (app.FormOpen (t.app.formAfter fe (typedIn fe steps form) event) ↔ ¬ t.app.Covers fe event) := by
  have hstays : t.app.FormOpen (typedIn fe steps form) := by
    induction run with
    | nil => exact hopen
    | @event steps t event host app run handles hends ih =>
      obtain ⟨state, hstate, hform⟩ := ih fun p hp => huncovered p (List.mem_append_left _ hp)
      have handled := App.on_form hstate (hs.form_idle (hr.trans run.reaches) hstate) handles
      have hc : ¬ t.app.Covers fe event := huncovered _ (List.mem_append_right _ (List.mem_singleton_self _))
      have hafter : typedIn fe (steps ++ [(t.app, event)]) form = t.app.formAfter fe (typedIn fe steps form) event :=
        List.foldl_append
      rw [hafter, ← hform]
      exact (handled.kept hc).resolve_left (hends _ ⟨state, hstate, rfl⟩)
    | work _ _ ih => exact ih huncovered
  refine ⟨hstays, fun event host app handles hends => ?_⟩
  obtain ⟨state, hstate, hform⟩ := hstays
  have handled := App.on_form hstate (hs.form_idle (hr.trans run.reaches) hstate) handles
  rw [← hform] at hends ⊢
  refine ⟨fun hkept hc => handled.covered hc _ hkept, fun hc => ?_⟩
  exact (handled.kept hc).resolve_left hends

end Session

/-! ## A form that is lost -/

/-- A frontend with a form of one line; a new entry, a quit and the prompt have keys. -/
def lineFrontend : Frontend Text where
  isBound cmd key :=
    match cmd with
    | .confirm => key.code = .enter
    | .addEntry => key.code = .other 1
    | .quit => key.code = .other 2
    | _ => false
  resolve _ pending := (.none, pending)
  handle _ _ := none
  buildRows _ _ _ := []
  nodePath _ _ := none
  search _ _ _ _ := []
  detailLines _ _ _ := none
  groupChoices _ := []
  paletteOrder _ := []
  themeNames := []
  wantsLight _ := false
  newForm := []
  formOf _ := []
  generating _ := false
  typed form key :=
    match key.code with
    | .char c => form ++ [c]
    | _ => form
  snapshot _ := none
  fromOtpauthUri _ := .ok ()
  encryptCredential _ _ := none
  toml := ⟨fun _ => none, fun _ => .error ""⟩
  codec := ⟨fun _ => .other "", fun _ => some { kind := .s3 }⟩

/-- A session that asks before it quits, in front of the prompt of the first vault. -/
def askingStart : Session Text :=
  ⟨smallHost,
    { phase := .unlockPrompt "a" {} 0, registry := some smallRegistry, userConfig := { confirmQuit := true },
      controller := { config := .default }, selectedVault := some "a", view := smallView }⟩

namespace Session

theorem asking_starts : askingStart.Starts :=
  ⟨⟨⟨smallRegistry, ∅, { confirmQuit := true }, false, true, false, some "a"⟩, rfl⟩, rfl, rfl⟩

/-- The application with the vault unlocked and this overlay. -/
def askingApp (view : View) (controller : AutoLockController) (overlay : Option (Overlay Text)) : App Text :=
  { phase := .workspace, vault := some (smallVault "/a"), registry := some smallRegistry,
    userConfig := { confirmQuit := true }, controller := controller, selectedVault := some "a", view := view,
    overlay := overlay }

/-- The form of a new entry. -/
def lineForm (group : Uuid) (form : Text) : Option (Overlay Text) :=
  some (.edit { isNew := true, target := none, group := group, form := form })

def askingHost : Host := { smallHost with opened := some (smallVault "/a") }

/-- The vault is unlocked, a new entry begun, a character typed, a quit asked for and not confirmed. -/
theorem asking_run : ∃ view₀ view₁ c₀ c₁ c₂ c₃ c₄ group,
    askingStart.Handles lineFrontend (press .enter) askingHost (.returned (askingApp view₀ c₀ none)) ∧
    (Session.mk askingHost (askingApp view₀ c₀ none)).Handles lineFrontend (press (.other 1)) askingHost
      (.returned (askingApp view₁ c₁ (lineForm group []))) ∧
    (Session.mk askingHost (askingApp view₁ c₁ (lineForm group []))).Handles lineFrontend (press (.char 'x')) askingHost
      (.returned (askingApp view₁ c₂ (lineForm group ['x']))) ∧
    (Session.mk askingHost (askingApp view₁ c₂ (lineForm group ['x']))).Handles lineFrontend
      (press (.other 2)) askingHost
      (.returned (askingApp view₁ c₃ (some .confirmQuit))) ∧
    (Session.mk askingHost (askingApp view₁ c₃ (some .confirmQuit))).Handles lineFrontend (press (.char 'n')) askingHost
      (.returned (askingApp view₁ c₄ none)) := by
  exact ⟨_, _, _, _, _, _, _, _, .ask (a := (0 : Nat)) rfl (.ask (exec_openVault (v := smallVault "/a") small_files.1)
    (.ask (a := (0 : Nat)) rfl .done)), .ask (a := (0 : Nat)) rfl .done, .ask (a := (0 : Nat)) rfl .done,
    .ask (a := (0 : Nat)) rfl .done, .ask (a := (0 : Nat)) rfl .done⟩

theorem asking_goes_on {app : App Text} {form : Text} {code : KeyCode} {view : View} {c : AutoLockController}
    {overlay : Option (Overlay Text)} (hesc : code ≠ .esc) (hsave : code ≠ .char 's') :
    ¬ app.Ends lineFrontend form (press code) (askingApp view c overlay) := by
  intro h
  cases h with
  | cancelled _ _ _ h => exact hesc h
  | saved _ _ h _ => exact hsave h
  | locked h _ => cases h
  | quit h => cases h

/-- A quit that is asked for and not confirmed does not come back to the form. -/
theorem quit_drops_form : ¬ ∀ (Form : Type) (fe : Frontend Form) (start s t : Session Form) (form : Form)
    (steps : List (App Form × Event)), start.Starts → Reaches fe start s → s.app.FormOpen form → Edits fe s steps t →
    t.app.FormOpen (typedIn fe steps form) := by
  intro hall
  obtain ⟨view₀, view₁, c₀, c₁, c₂, c₃, c₄, group, unlock, add, type, quit, cancel⟩ := asking_run
  have reached := (Relation.ReflTransGen.single (Step.event unlock)).tail (Step.event add)
  have run := (((Edits.nil.event type fun _ _ => asking_goes_on (by decide) (by decide)).event quit
    fun _ _ => asking_goes_on (by decide) (by decide)).event cancel fun _ _ => asking_goes_on (by decide) (by decide))
  obtain ⟨state, hopen, -⟩ := hall _ _ _ _ _ _ _ asking_starts reached ⟨_, rfl, rfl⟩ run
  cases hopen

/-- Before that the character was in the form. -/
theorem form_stays_iff_typed : ∃ s, Reaches lineFrontend askingStart s ∧ s.app.FormOpen ['x'] := by
  obtain ⟨view₀, view₁, c₀, c₁, c₂, c₃, c₄, group, unlock, add, type, quit, cancel⟩ := asking_run
  have reached := (Relation.ReflTransGen.single (Step.event unlock)).tail (Step.event add)
  have run := Edits.nil.event type fun _ _ => asking_goes_on (by decide) (by decide)
  have uncovered : ∀ p ∈ [(askingApp view₁ c₁ (lineForm group []), press (.char 'x'))],
    ¬ p.1.Covers lineFrontend p.2 := by
    intro p hp
    obtain rfl := List.mem_singleton.1 hp
    rintro ⟨-, ⟨h, -⟩ | ⟨-, h, -⟩⟩
    · cases h
    · cases h
  exact ⟨_, reached.trans run.reaches, (form_stays_iff asking_starts reached ⟨_, rfl, rfl⟩ run uncovered).1⟩

end Session

end Falach.Tui
