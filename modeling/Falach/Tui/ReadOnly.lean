import Falach.Tui.Reachable
/-!
# Read-only sessions

With `--read-only` nothing that a session does reaches a vault, its file, the registry or a remote.
-/

namespace Falach.Tui

open Keepass Program

variable {Form : Type} {fe : Frontend Form}

/-- The surroundings are as they were at the start, no sync has ever started, and an unlocked vault is as it was
opened. -/
structure Untouched (start h : Host) (c : Core) : Prop where
  readOnly : c.readOnly = true
  inflight : c.inflight = none
  workers : h.workers = []
  vaultFiles : h.vaultFiles = start.vaultFiles
  vaultsToml : h.vaultsToml = start.vaultsToml
  remote : h.remote = start.remote
  vault : ∀ v, c.vault = some v → h.opened = some v

namespace Untouched

variable {start h h' : Host} {c c' : Core}

theorem not_writable (hu : Untouched start h c) {p : Prop} (hro : c.readOnly = false) : p :=
  absurd (hu.readOnly.symm.trans hro) nofun

theorem sends (hs : Sends h c h' c') (hu : Untouched start h c) : Untouched start h' c' := by
  cases hs with
  | stays => exact hu
  | spawned hro _ _ => exact hu.not_writable hro

theorem effect (he : Effect h c h' c') (hu : Untouched start h c) : Untouched start h' c' := by
  cases he with
  | left hs => exact sends hs hu
  | moved _ _ => exact { hu with }
  | @unlocked name input attempts v r h' c' _ _ hs =>
    refine sends hs { hu with vault := ?_ }
    rintro v' hv
    cases hv
    rfl
  | edited hro _ _ => exact hu.not_writable hro
  | configured hro _ _ => exact hu.not_writable hro
  | locked _ => exact { hu with vault := fun _ hv => by cases hv }
  | deferred _ => exact { hu with }
  | pending hin _ _ _ => rw [hu.inflight] at hin; cases hin
  | collected hin _ _ => rw [hu.inflight] at hin; cases hin
  | handedBack hin _ _ _ => rw [hu.inflight] at hin; cases hin

theorem work (hw : h.Work h') (hu : Untouched start h c) : Untouched start h' c := by
  have none : ∀ {i : Nat} {w : Worker} {p : Prop}, h.workers[i]? = some w → p := fun hi => by
    rw [hu.workers] at hi
    cases hi
  cases hw with
  | sync hi _ _ => exact none hi
  | activity hi _ => exact none hi
  | done _ hi _ => exact none hi
  | panic hi _ => exact none hi

end Untouched

namespace Session

variable {start s : Session Form}

theorem Starts.untouched (hs : start.Starts) (hro : start.app.readOnly = true) :
    Untouched start.host start.host start.app.core := by
  obtain ⟨launch, hnew⟩ := hs.app
  have hf := App.fresh_of_new hnew
  exact ⟨hro, hf.inflight, hs.workers, rfl, rfl, rfl, fun v hv => by
    rw [show start.app.core.vault = none from hf.vault] at hv
    cases hv⟩

theorem read_only_untouched (hs : start.Starts) (hro : start.app.readOnly = true) (hr : Reaches fe start s) :
    Untouched start.host s.host s.app.core :=
  hs.invariant (hs.untouched hro) (fun _ hu he => hu.effect he) (fun _ hu hw => hu.work hw) hr

/-- A read-only session changes no vault, no vault file, neither the registry file nor a remote object, and no event
ends it halfway. -/
theorem read_only_never_mutates (hs : start.Starts) (hro : start.app.readOnly = true) (hr : Reaches fe start s) :
    s.host.vaultFiles = start.host.vaultFiles ∧ s.host.vaultsToml = start.host.vaultsToml ∧
      s.host.remote = start.host.remote ∧ (∀ v, s.app.vault = some v → s.host.opened = some v) ∧
      ∀ event host ending, s.Handles fe event host ending → ∃ app, ending = .returned app := by
  have hu := read_only_untouched hs hro hr
  refine ⟨hu.vaultFiles, hu.vaultsToml, hu.remote, hu.vault, fun event host ending h => ?_⟩
  cases ending with
  | returned app => exact ⟨app, rfl⟩
  | failed e => exact hu.not_writable (Upholds.failed ((hs.reaches hr).ends event) h).2
  | panicked => exact absurd h (Upholds.not_panicked ((hs.reaches hr).ends event) fun _ _ _ => id)

/-- The first vault of the small session, unlocked without leave to write. -/
theorem small_read_only : ∃ s, Reaches smallFrontend (smallStart true false) s ∧ s.app.vault = some (smallVault "/a") ∧
    s.host.vaultFiles = smallHost.vaultFiles ∧ s.host.opened = some (smallVault "/a") := by
  obtain ⟨view, unlock⟩ := small_unlock true small_files.1 smallView { config := .default }
  have run := Relation.ReflTransGen.single (Step.event (s := smallStart true false) unlock)
  have mutates := read_only_never_mutates (small_starts true false) rfl run
  exact ⟨_, run, rfl, mutates.1, mutates.2.2.2.1 _ rfl⟩

end Session

end Falach.Tui
