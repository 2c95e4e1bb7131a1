import Falach.Core.AtomicRuns
/-!
# Creating a vault

`Vault::create`, whose path is taken by an empty file before anything else is done, and what is at the path when it
fails. The path is a name in its directory.
-/

namespace Falach

open Keepass Program

/-! ## The code -/

inductive Keyfile where
  | path (path : String)
  | bytes (bytes : Bytes)

/-- `KeyfileMaterial`. -/
abbrev KeyfileMaterial := Option Bytes

/-- `keepass::DatabaseKey`. -/
structure DatabaseKey where
  password : Option String := none
  keyfile : Option Bytes := none

/-- What `Database::save` does with a key: the bytes it writes, and how it fails. -/
structure DatabaseSave where
  chunks : List Bytes
  reason : IoError → String
  failure : Option String

/-- The handle that is returned. -/
structure CreatedVault where
  path : String
  key : DatabaseKey
  keyfileMaterial : KeyfileMaterial

/-- What `create` asks of the file system. -/
inductive CreateOp where
  | pathExists (path : String)
  | createDirAll
  | createNew (path : String)
  | readFile (path : String)
  | openSidecar (path : String)
  | tryLock
  | unlock
  | removeFile (path : String)
  | atomic (op : AtomicOp)

@[reducible] def CreateAnswer : CreateOp → Type
  | .pathExists _ => Bool
  | .readFile _ => Except IoError Bytes
  | .unlock => Unit
  | .atomic op => AtomicAnswer op
  | _ => Except IoError Unit

abbrev CreateRun (α : Type) := Program CreateOp CreateAnswer FileError α

/-- `KeyfileMaterial::from_keyfile`. -/
def fromKeyfile : Option Keyfile → CreateRun KeyfileMaterial
  | none => return none
  | some (.bytes bytes) => return some bytes
  | some (.path path) => do
    match ← request CreateAnswer (.readFile path) with
    | .error source => fail (.io source path)
    | .ok bytes => return some bytes

/-- `build_database_key_from_material`; bytes in memory can always be read. -/
def buildDatabaseKeyFromMaterial (master : String) (material : KeyfileMaterial) : DatabaseKey :=
  let key : DatabaseKey := { password := some master }
  match material with
  | none => key
  | some bytes => { key with keyfile := some bytes }

def sidecarLockPath (path : String) : String := path ++ ".lock"

/-- `acquire_exclusive`; a request that is interrupted is made again. -/
def acquireExclusive (path : String) : CreateRun (Except FileError Unit) := do
  match ← request CreateAnswer (.openSidecar path) with
  | .error source => return .error (.io source (sidecarLockPath path))
  | .ok () =>
    match ← request CreateAnswer .tryLock with
    | .ok () => return .ok ()
    | .error .wouldBlock => return .error .contended
    | .error source => return .error (.io source path)

def DatabaseSave.content (save : DatabaseSave) : Content where
  chunks := save.chunks
  failed source := .writeFailed (save.reason source)
  result := match save.failure with
    | none => .ok ()
    | some reason => .error (.writeFailed reason)

def saveDatabase (path : String) (save : DatabaseSave) : CreateRun (Except FileError Unit) :=
  (writeAtomicWith path save.content).lift CreateOp.atomic fun _ a => a

namespace Vault

/-- `create`, from where the path is reserved. -/
def createReserved (path master : String) (keyfile : Option Keyfile) (save : DatabaseKey → DatabaseSave) :
    CreateRun CreatedVault := do
  let keyfileMaterial ← fromKeyfile keyfile
  let key := buildDatabaseKeyFromMaterial master keyfileMaterial
  match ← acquireExclusive path with
  | .error e => do
    let _ ← request CreateAnswer (.removeFile path)
    fail e
  | .ok () =>
    match ← saveDatabase path (save key) with
    | .error e => do
      let _ ← request CreateAnswer (.removeFile path)
      request CreateAnswer .unlock
      fail e
    | .ok () => return ⟨path, key, keyfileMaterial⟩

def create (path master : String) (keyfile : Option Keyfile) (save : DatabaseKey → DatabaseSave) :
    CreateRun CreatedVault := do
  if ← request CreateAnswer (.pathExists path) then fail (.pathExists path)
  else
    match ← request CreateAnswer .createDirAll with
    | .error source => fail (.io source parentPath)
    | .ok () =>
      match ← request CreateAnswer (.createNew path) with
      | .error .alreadyExists => fail (.pathExists path)
      | .error source => fail (.io source path)
      | .ok () => createReserved path master keyfile save

end Vault

/-! ## The file system -/

/-- The directory of the path, and the files that the call has open. -/
abbrev CreateState := Directory × OpenFiles

/-- What a request does. The keyfile may be anywhere. That a path exists is known only if it can be looked at. -/
inductive CreateExec : CreateState → (op : CreateOp) → CreateAnswer op → CreateState → Prop where
  | pathExists {s path x} : s.1.names path = some x → CreateExec s (.pathExists path) true s
  | pathNotSeen {s path} : CreateExec s (.pathExists path) false s
  | createDirAll {s} : CreateExec s .createDirAll (.ok ()) s
  | createDirAllFails {s} (e) : CreateExec s .createDirAll (.error e) s
  | createNew {s path} : s.1.names path = none → CreateExec s (.createNew path) (.ok ()) (s.1.create path, s.2)
  | createNewThere {s path x} : s.1.names path = some x → CreateExec s (.createNew path) (.error .alreadyExists) s
  | createNewFails {s path} (code) : CreateExec s (.createNew path) (.error (.other code)) s
  | readFile {s path} (bytes) : CreateExec s (.readFile path) (.ok bytes) s
  | readFileFails {s path} (e) : CreateExec s (.readFile path) (.error e) s
  | openSidecar {s path x} : s.1.names (sidecarLockPath path) = some x → CreateExec s (.openSidecar path) (.ok ()) s
  | createSidecar {s path} : s.1.names (sidecarLockPath path) = none →
      CreateExec s (.openSidecar path) (.ok ()) (s.1.create (sidecarLockPath path), s.2)
  | openSidecarFails {s path} (e) : CreateExec s (.openSidecar path) (.error e) s
  | tryLock {s} (a) : CreateExec s .tryLock a s
  | unlock {s} : CreateExec s .unlock () s
  | removeFile {s path x} : s.1.names path = some x → CreateExec s (.removeFile path) (.ok ()) (s.1.unlink path, s.2)
  | removeFileGone {s path} : s.1.names path = none → CreateExec s (.removeFile path) (.error .notFound) s
  | removeFileFails {s path} (code) : CreateExec s (.removeFile path) (.error (.other code)) s
  | atomic {s s' op a} : OpenFiles.Exec s.1 (fun _ : Unit => s.2) () op a s'.1 s'.2 → CreateExec s (.atomic op) a s'

/-- A request, its answer, and the state it was made in. -/
abbrev CreateStep := CreateState × (op : CreateOp) × CreateAnswer op

/-- A request of a run whose steps are written down. -/
def Recorded (s : CreateState × List CreateStep) (op : CreateOp) (a : CreateAnswer op)
    (s' : CreateState × List CreateStep) :
    Prop :=
  CreateExec s.1 op a s'.1 ∧ s'.2 = s.2 ++ [(s.1, ⟨op, a⟩)]

/-- The runs of a program to its end, with the steps it took. -/
abbrev RunsTo {α : Type} (s : CreateState × List CreateStep) (p : CreateRun α) (s' : CreateState × List CreateStep)
    (r : Ending FileError α) : Prop :=
  Runs Recorded (fun _ _ => False) s p s' r

/-- The step is none that leaves the reservation where it is: a keyfile is read, and a file that is to be removed
goes, or is not there. -/
def CreateStep.Undoable : CreateStep → Prop
  | (_, ⟨.readFile _, .error _⟩) => False
  | (s, ⟨.removeFile path, .error _⟩) => s.1.names path = none
  | _ => True

/-- What was at the path is there, and if there was nothing, there is nothing. -/
def Untouched (path : String) (g g' : Directory) : Prop := g'.names path = g.names path ∧ g'.read path = g.read path

/-! ## What a run leaves -/

def AllUndoable (steps : List CreateStep) : Prop := ∀ step ∈ steps, step.Undoable

theorem allUndoable_concat {steps : List CreateStep} (step : CreateStep) (h : AllUndoable steps) :
    AllUndoable (steps ++ [step]) ↔ step.Undoable := by
  rw [AllUndoable, List.forall_mem_append, List.forall_mem_singleton]
  exact and_iff_right h

section

variable {α β : Type} {s s' : CreateState × List CreateStep} {t : CreateState} {path : String} {r : Ending FileError α}

theorem RunsTo.of_ask {op : CreateOp} {k : CreateAnswer op → CreateRun α} (run : RunsTo s (.ask op k) s' r) :
    ∃ a t, CreateExec s.1 op a t ∧ RunsTo (t, s.2 ++ [(s.1, ⟨op, a⟩)]) (k a) s' r := by
  cases run with
  | @ask _ m _ _ _ a _ hstep run =>
    obtain ⟨hexec, hsteps⟩ := hstep
    refine ⟨a, m.1, hexec, ?_⟩
    rw [← hsteps]
    exact run
  | panic h => cases h

theorem RunsTo.next {u : CreateState} {steps : List CreateStep} {op : CreateOp} {k : CreateAnswer op → CreateRun α}
    {a : CreateAnswer op} (h : CreateExec u op a t) (run : RunsTo (t, steps ++ [(u, ⟨op, a⟩)]) (k a) s' r) :
    RunsTo (u, steps) (.ask op k) s' r :=
  .ask ⟨h, rfl⟩ run

theorem RunsTo.of_done {a : α} (run : RunsTo s (Program.done a) s' r) : s' = s ∧ r = .returned a := by
  cases run with
  | done => exact ⟨rfl, rfl⟩

theorem RunsTo.of_fail {e : FileError} (run : RunsTo s (Program.fail e) s' r) : s' = s ∧ r = .failed e := by
  cases run with
  | fail => exact ⟨rfl, rfl⟩

/-- A write is none of the steps that matter, however it goes. -/
theorem RunsTo.atomic {p : AtomicRun β} {f : Except FileError β → CreateRun α} (hs : AllUndoable s.2)
    (run : RunsTo s (p.lift CreateOp.atomic (fun _ a => a) >>= f) s' r) :
    ∃ t res, AllUndoable t.2 ∧ RunsTo t (f res) s' r := by
  induction p generalizing s with
  | done a => exact ⟨s, .ok a, hs, run⟩
  | fail e => exact ⟨s, .error e, hs, run⟩
  | ask op k ih =>
    obtain ⟨a, t, -, run⟩ := RunsTo.of_ask (show RunsTo s (.ask (.atomic op) _) s' r from run)
    exact ih a ((allUndoable_concat ((s.1, ⟨.atomic op, a⟩)) hs).2 trivial) run

/-- The file is gone after its removal, unless the removal failed. -/
theorem removeFile_iff {a : Except IoError Unit} (h : CreateExec s.1 (.removeFile path) a t) :
    t.1.names path = none ↔ CreateStep.Undoable (s.1, ⟨.removeFile path, a⟩) := by
  cases h with
  | removeFile hx =>
    refine iff_of_true ?_ trivial
    rw [Directory.names_unlink, if_pos rfl]
  | removeFileGone hgone => exact Iff.rfl
  | removeFileFails code => exact Iff.rfl

theorem sidecarLockPath_ne (path : String) : path ≠ sidecarLockPath path := by
  intro h
  have hlen := congrArg String.length h
  rw [sidecarLockPath, String.length_append] at hlen
  exact absurd hlen (Nat.ne_of_lt (Nat.lt_add_of_pos_right (by decide)))

/-- The lock is asked for in another file than the one at the path. -/
theorem acquireExclusive_runs {f : Except FileError Unit → CreateRun α} (hs : AllUndoable s.2)
    (run : RunsTo s (acquireExclusive path >>= f) s' r) :
    ∃ t res, AllUndoable t.2 ∧ t.1.1.names path = s.1.1.names path ∧ RunsTo t (f res) s' r := by
  obtain ⟨opened, t, hopen, run⟩ := RunsTo.of_ask (show RunsTo s (.ask (.openSidecar path) _) s' r from run)
  have hnames : t.1.names path = s.1.1.names path := by
    cases hopen with
    | openSidecar _ => rfl
    | createSidecar _ => rw [Directory.names_create, if_neg (sidecarLockPath_ne path)]
    | openSidecarFails _ => rfl
  have ht : AllUndoable (s.2 ++ [(s.1, ⟨.openSidecar path, opened⟩)]) :=
    (allUndoable_concat ((s.1, ⟨.openSidecar path, opened⟩)) hs).2 trivial
  cases opened with
  | error source => exact ⟨_, _, ht, hnames, run⟩
  | ok _ =>
    obtain ⟨tried, u, htry, run⟩ := RunsTo.of_ask (show RunsTo _ (.ask .tryLock _) s' r from run)
    obtain rfl : u = t := by
      cases htry
      rfl
    have hu := (allUndoable_concat ((u, ⟨.tryLock, tried⟩)) ht).2 trivial
    cases tried with
    | ok _ => exact ⟨_, _, hu, hnames, run⟩
    | error source =>
      cases source with
      | wouldBlock => exact ⟨_, _, hu, hnames, run⟩
      | notFound => exact ⟨_, _, hu, hnames, run⟩
      | alreadyExists => exact ⟨_, _, hu, hnames, run⟩
      | other code => exact ⟨_, _, hu, hnames, run⟩

/-- A keyfile that cannot be read is the end of the call. -/
theorem fromKeyfile_runs {f : KeyfileMaterial → CreateRun α} {keyfile : Option Keyfile} (hs : AllUndoable s.2)
    (run : RunsTo s (fromKeyfile keyfile >>= f) s' r) :
    (∃ t material, AllUndoable t.2 ∧ t.1 = s.1 ∧ RunsTo t (f material) s' r) ∨
      (¬ AllUndoable s'.2 ∧ s'.1 = s.1 ∧ ∃ e, r = .failed e) := by
  cases keyfile with
  | none => exact .inl ⟨s, none, hs, rfl, run⟩
  | some keyfile =>
    cases keyfile with
    | bytes bytes => exact .inl ⟨s, some bytes, hs, rfl, run⟩
    | path path =>
      obtain ⟨read, t, hread, run⟩ := RunsTo.of_ask (show RunsTo s (.ask (.readFile path) _) s' r from run)
      obtain rfl : t = s.1 := by
        cases hread with
        | readFile _ => rfl
        | readFileFails _ => rfl
      cases read with
      | ok bytes =>
        have ht := (allUndoable_concat ((s.1, ⟨.readFile path, .ok bytes⟩)) hs).2 trivial
        exact .inl ⟨(s.1, s.2 ++ [(s.1, ⟨.readFile path, .ok bytes⟩)]), some bytes, ht, rfl, run⟩
      | error source =>
        obtain ⟨rfl, rfl⟩ := RunsTo.of_fail run
        exact .inr ⟨fun h => (allUndoable_concat _ hs).1 h, rfl, _, rfl⟩

variable {master : String} {keyfile : Option Keyfile} {save : DatabaseKey → DatabaseSave}

/-- Once the path is reserved, a call that fails leaves nothing there exactly if all its steps can be undone. -/
theorem createReserved_runs {x : Inode} {r : Ending FileError CreatedVault} (hx : s.1.1.names path = some x)
    (hs : AllUndoable s.2) (run : RunsTo s (Vault.createReserved path master keyfile save) s' r) :
    (∀ e, r = .failed e → s'.1.1.names path = none) ↔ AllUndoable s'.2 := by
  rcases fromKeyfile_runs hs run with ⟨s, material, hs, hsame, run⟩ | ⟨hnot, hsame, e, he⟩
  · rw [← hsame] at hx
    obtain ⟨t, locked, ht, hnames, run⟩ := acquireExclusive_runs hs run
    cases locked with
    | error e =>
      obtain ⟨removed, u, hremove, run⟩ := RunsTo.of_ask (show RunsTo t (.ask (.removeFile path) _) s' r from run)
      obtain ⟨rfl, rfl⟩ := RunsTo.of_fail run
      rw [allUndoable_concat _ ht, ← removeFile_iff hremove]
      exact ⟨fun h => h e rfl, fun h _ _ => h⟩
    | ok _ =>
      obtain ⟨t, saved, ht, run⟩ := RunsTo.atomic ht run
      cases saved with
      | error e =>
        obtain ⟨removed, u, hremove, run⟩ := RunsTo.of_ask (show RunsTo t (.ask (.removeFile path) _) s' r from run)
        obtain ⟨unlocked, v, hunlock, run⟩ := RunsTo.of_ask (show RunsTo _ (.ask .unlock _) s' r from run)
        obtain ⟨rfl, rfl⟩ := RunsTo.of_fail run
        obtain rfl : v = u := by
          cases hunlock
          rfl
        have hall : AllUndoable (t.2 ++ [(t.1, ⟨.removeFile path, removed⟩)] ++ [(v, ⟨.unlock, unlocked⟩)]) ↔
            AllUndoable (t.2 ++ [(t.1, ⟨.removeFile path, removed⟩)]) := by
          rw [AllUndoable, List.forall_mem_append, List.forall_mem_singleton]
          exact and_iff_left trivial
        rw [hall, allUndoable_concat _ ht, ← removeFile_iff hremove]
        exact ⟨fun h => h e rfl, fun h _ _ => h⟩
      | ok _ =>
        obtain ⟨rfl, rfl⟩ := RunsTo.of_done run
        exact iff_of_true (fun _ h => by cases h) ht
  · rw [hsame, hx]
    exact iff_of_false (fun h => by cases h e he) hnot

end

section

variable {path master : String} {keyfile : Option Keyfile} {save : DatabaseKey → DatabaseSave} {start : Directory}
  {s : CreateState × List CreateStep} {r : Ending FileError CreatedVault}

theorem untouched_iff_none {g g' : Directory} (h : g.names path = none) :
    Untouched path g g' ↔ g'.names path = none := by
  rw [Untouched, Directory.read, Directory.read, h]
  exact and_iff_left_of_imp fun h' => by rw [h']; rfl

/-- A call that fails leaves at the path what was there, nothing or a file, exactly if the keyfile could be read once
the path was reserved and the reservation could be removed. -/
theorem create_untouched_iff (run : RunsTo ((start, {}), []) (Vault.create path master keyfile save) s r) :
    (∀ e, r = .failed e → Untouched path start s.1.1) ↔ ∀ step ∈ s.2, step.Undoable := by
  have hnil : AllUndoable [] := fun _ h => absurd h List.not_mem_nil
  obtain ⟨seen, t, hexists, run⟩ := RunsTo.of_ask (show RunsTo _ (.ask (.pathExists path) _) s r from run)
  obtain rfl : t = (start, {}) := by
    cases hexists with
    | pathExists _ => rfl
    | pathNotSeen => rfl
  have hs := (allUndoable_concat (((start, {}), ⟨.pathExists path, seen⟩)) hnil).2 trivial
  cases seen with
  | true =>
    obtain ⟨rfl, -⟩ := RunsTo.of_fail run
    exact iff_of_true (fun _ _ => ⟨rfl, rfl⟩) hs
  | false =>
    obtain ⟨made, t, hmade, run⟩ := RunsTo.of_ask (show RunsTo _ (.ask .createDirAll _) s r from run)
    obtain rfl : t = (start, {}) := by
      cases hmade with
      | createDirAll => rfl
      | createDirAllFails _ => rfl
    have hs := (allUndoable_concat (((start, {}), ⟨.createDirAll, made⟩)) hs).2 trivial
    cases made with
    | error source =>
      obtain ⟨rfl, -⟩ := RunsTo.of_fail run
      exact iff_of_true (fun _ _ => ⟨rfl, rfl⟩) hs
    | ok _ =>
      obtain ⟨reserved, t, hreserved, run⟩ := RunsTo.of_ask (show RunsTo _ (.ask (.createNew path) _) s r from run)
      have hs := (allUndoable_concat (((start, {}), ⟨.createNew path, reserved⟩)) hs).2 trivial
      cases hreserved with
      | createNew hfree =>
        -- from here on the empty file is there
        have hpath : (start.create path).names path = some start.next := by rw [Directory.names_create, if_pos rfl]
        have hiff := createReserved_runs (s := ((start.create path, {}), _)) hpath hs run
        refine Iff.trans (forall_congr' fun e => imp_congr_right fun _ => ?_) hiff
        exact untouched_iff_none hfree
      | createNewThere _ =>
        obtain ⟨rfl, -⟩ := RunsTo.of_fail run
        exact iff_of_true (fun _ _ => ⟨rfl, rfl⟩) hs
      | createNewFails code =>
        obtain ⟨rfl, -⟩ := RunsTo.of_fail run
        exact iff_of_true (fun _ _ => ⟨rfl, rfl⟩) hs

end

def emptyDirectory : Directory := ⟨fun _ => none, fun _ => [], 0, fun _ _ h => by cases h⟩

def emptySave (_ : DatabaseKey) : DatabaseSave := ⟨[], fun _ => "", none⟩

/-- Somebody has the lock already: the reservation is removed. -/
theorem contended_create_is_undone : ∃ s, RunsTo ((emptyDirectory, {}), []) (Vault.create "v" "pw" none emptySave) s
    (.failed .contended) ∧ Untouched "v" emptyDirectory s.1.1 := by
  have run : ∃ s, RunsTo ((emptyDirectory, {}), []) (Vault.create "v" "pw" none emptySave) s (.failed .contended) ∧
      ∀ step ∈ s.2, step.Undoable := by
    refine ⟨_, .next .pathNotSeen (.next .createDirAll
      (.next (.createNew rfl) (.next (.createSidecar (by decide +kernel))
      (.next (.tryLock (.error .wouldBlock)) (.next (.removeFile (show _ = some 0 by decide +kernel)) .fail))))), ?_⟩
    intro step hstep
    simp only [List.nil_append, List.cons_append, List.mem_cons, List.not_mem_nil, or_false] at hstep
    rcases hstep with rfl | rfl | rfl | rfl | rfl | rfl
    all_goals trivial
  obtain ⟨s, run, hs⟩ := run
  exact ⟨s, run, (create_untouched_iff run).2 hs _ rfl⟩

/-- The keyfile is not there: the empty file stays, so that the next try fails as well. -/
theorem missing_keyfile_leaves_file : ∃ s, RunsTo ((emptyDirectory, {}), [])
    (Vault.create "v" "pw" (some (.path "missing.key")) emptySave) s (.failed (.io .notFound "missing.key")) ∧
    emptyDirectory.names "v" = none ∧ s.1.1.read "v" = some [] := by
  refine ⟨_, .next .pathNotSeen (.next .createDirAll
    (.next (.createNew rfl) (.next (.readFileFails .notFound) .fail))), rfl, ?_⟩
  decide +kernel

end Falach
