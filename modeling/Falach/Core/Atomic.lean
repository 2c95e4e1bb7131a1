import Falach.Keepass.Database
import Falach.Lib.Processes
import Mathlib.Data.Fintype.Defs
/-!
# Writing files atomically

`write_atomic` and `write_atomic_with`. Every request to the file system is a step of its own. The directory is the
one the target is in; a lock belongs to an open file, and is held on what the file is, whatever its name.
-/

namespace Falach

open Keepass Program

/-! ## Errors -/

/-- An I/O error: the two kinds that the code asks for, one it is told when a file is there already, and all others. -/
inductive IoError where
  | notFound
  | wouldBlock
  | alreadyExists
  | other (code : Nat)
deriving DecidableEq

/-- `VaultError`, as far as writing and creating files can return it. -/
inductive FileError where
  | io (source : IoError) (path : String)
  | pathExists (path : String)
  | contended
  | writeFailed (reason : String)
deriving DecidableEq

/-! ## Requests -/

def tempPrefix : String := ".falach-tmp-"

def IsTemp (name : String) : Prop := tempPrefix.toList <+: name.toList

instance (name : String) : Decidable (IsTemp name) := inferInstanceAs (Decidable (_ <+: _))

/-- What a write asks of the file system. A probe is the file that the cleanup has open. -/
inductive AtomicOp where
  | readDir
  | openProbe (name : String)
  | lockProbe
  | removeFile (name : String)
  | closeProbe
  | createTemp
  | lockTemp
  | write (chunk : Bytes)
  | syncTemp
  | persist (target : String)
  | dropTemp
  | syncParentDir

@[reducible] def AtomicAnswer : AtomicOp → Type
  | .readDir => Except IoError (List (Except IoError String))
  | .closeProbe => Unit
  | .dropTemp => Unit
  | _ => Except IoError Unit

abbrev AtomicRun (α : Type) := Program AtomicOp AtomicAnswer FileError α

/-- What is written to the temp file: the bytes, piece by piece, how a failed piece is reported, and what the closure
returns in the end. -/
structure Content where
  chunks : List Bytes
  failed : IoError → FileError
  result : Except FileError Unit

/-! ## The code -/

/-- `parent` in an error. -/
def parentPath : String := "."

/-- What the cleanup does with a name. The file is closed when it goes out of scope. -/
def cleanupEntry (name : String) : AtomicRun Unit :=
  if IsTemp name then do
    match ← request AtomicAnswer (.openProbe name) with
    | .error .notFound => return ()
    | .error source => fail (.io source name)
    | .ok () =>
      match ← request AtomicAnswer .lockProbe with
      | .error .wouldBlock => request AtomicAnswer .closeProbe
      | .error source => do
        request AtomicAnswer .closeProbe
        fail (.io source name)
      | .ok () =>
        let removed ← request AtomicAnswer (.removeFile name)
        request AtomicAnswer .closeProbe
        match removed with
        | .error source => fail (.io source name)
        | .ok () => return ()
  else return ()

/-- The loop of the cleanup. -/
def cleanupEntries : List (Except IoError String) → AtomicRun Unit
  | [] => return ()
  | .error source :: _ => fail (.io source parentPath)
  | .ok name :: entries => do
    cleanupEntry name
    cleanupEntries entries

def cleanupStaleTempFiles : AtomicRun Unit := do
  match ← request AtomicAnswer .readDir with
  | .error source => fail (.io source parentPath)
  | .ok entries => cleanupEntries entries

/-- An error after the temp file was created: it is dropped, and so removed. -/
def orDrop (report : IoError → FileError) : Except IoError Unit → AtomicRun Unit
  | .ok () => return ()
  | .error source => do
    request AtomicAnswer .dropTemp
    fail (report source)

def writeChunks (failed : IoError → FileError) : List Bytes → AtomicRun Unit
  | [] => return ()
  | chunk :: chunks => do
    request AtomicAnswer (.write chunk) >>= orDrop failed
    writeChunks failed chunks

/-- The closure of `write_atomic_with`. -/
def writeContent (content : Content) : AtomicRun Unit := do
  writeChunks content.failed content.chunks
  match content.result with
  | .ok () => return ()
  | .error e => do
    request AtomicAnswer .dropTemp
    fail e

def writeAtomicWith (target : String) (content : Content) : AtomicRun Unit := do
  cleanupStaleTempFiles
  match ← request AtomicAnswer .createTemp with
  | .error source => fail (.io source parentPath)
  | .ok () =>
    request AtomicAnswer .lockTemp >>= orDrop (.io · target)
    writeContent content
    request AtomicAnswer .syncTemp >>= orDrop (.io · target)
    request AtomicAnswer (.persist target) >>= orDrop (.io · target)
    match ← request AtomicAnswer .syncParentDir with
    | .error source => fail (.io source parentPath)
    | .ok () => return ()

/-- `write_atomic`, whose bytes are written in as many pieces as it takes. -/
def writeAtomic (target : String) (chunks : List Bytes) : AtomicRun Unit :=
  writeAtomicWith target ⟨chunks, (.io · target), .ok ()⟩

/-! ## The file system -/

abbrev Inode := Nat

/-- A directory. Files get new numbers, so none is mistaken for one that was there before. -/
structure Directory where
  names : String → Option Inode
  data : Inode → Bytes
  next : Inode
  bounded : ∀ name x, names name = some x → x < next

namespace Directory

def unlink (g : Directory) (name : String) : Directory where
  names := Function.update g.names name none
  data := g.data
  next := g.next
  bounded n x h := by
    by_cases hn : n = name
    · rw [hn, Function.update_self] at h
      cases h
    · rw [Function.update_of_ne hn] at h
      exact g.bounded n x h

def create (g : Directory) (name : String) : Directory where
  names := Function.update g.names name (some g.next)
  data := Function.update g.data g.next []
  next := g.next + 1
  bounded n x h := by
    by_cases hn : n = name
    · rw [hn, Function.update_self] at h
      cases h
      exact Nat.lt_succ_self _
    · rw [Function.update_of_ne hn] at h
      exact Nat.lt_succ_of_lt (g.bounded n x h)

def append (g : Directory) (x : Inode) (bytes : Bytes) : Directory :=
  { g with data := Function.update g.data x (g.data x ++ bytes) }

/-- The rename of what is there as `source`. -/
def rename (g : Directory) (source target : String) (x : Inode) (h : g.names source = some x) : Directory where
  names := Function.update (Function.update g.names source none) target (some x)
  data := g.data
  next := g.next
  bounded n y hy := by
    by_cases hn : n = target
    · rw [hn, Function.update_self] at hy
      cases hy
      exact g.bounded source x h
    · rw [Function.update_of_ne hn] at hy
      by_cases hs : n = source
      · rw [hs, Function.update_self] at hy
        cases hy
      · rw [Function.update_of_ne hs] at hy
        exact g.bounded n y hy

variable (g : Directory) (name other : String)

@[simp] theorem names_unlink : (g.unlink name).names other = if other = name then none else g.names other :=
  Function.update_apply _ _ _ _

@[simp] theorem names_create : (g.create name).names other = if other = name then some g.next else g.names other :=
  Function.update_apply _ _ _ _

@[simp] theorem names_rename {source target : String} {x : Inode} (h : g.names source = some x) :
    (g.rename source target x h).names other = if other = target then some x else if other = source then none
      else g.names other :=
  (Function.update_apply _ _ _ _).trans (congrArg _ (Function.update_apply _ _ _ _))

@[simp] theorem data_append (x y : Inode) (bytes : Bytes) :
    (g.append x bytes).data y = if y = x then g.data x ++ bytes else g.data y := Function.update_apply _ _ _ _

@[simp] theorem data_create (y : Inode) : (g.create name).data y = if y = g.next then [] else g.data y :=
  Function.update_apply _ _ _ _

end Directory

/-- The file that the cleanup has open, and under which name it was opened. `removed` is recorded for the proofs. -/
structure Probe where
  name : String
  inode : Inode
  locked : Bool := false
  removed : Bool := false

/-- A `NamedTempFile`. `written` is recorded for the proofs. -/
structure Temp where
  name : String
  inode : Inode
  locked : Bool
  written : Bytes

/-- The files a process has open; `kept` is the one that it has renamed, if it is still locked. -/
structure OpenFiles where
  probe : Option Probe := none
  temp : Option Temp := none
  kept : Option Inode := none

namespace OpenFiles

def Locks (l : OpenFiles) (x : Inode) : Prop :=
  (∃ p ∈ l.probe, p.inode = x ∧ p.locked = true) ∨ (∃ t ∈ l.temp, t.inode = x ∧ t.locked = true) ∨ x ∈ l.kept

variable {ι : Type}

/-- An exclusive lock: whoever asks, no open file may have it. -/
def Locked (held : ι → OpenFiles) (x : Inode) : Prop := ∃ i, (held i).Locks x

instance (l : OpenFiles) (x : Inode) : Decidable (l.Locks x) := inferInstanceAs (Decidable (_ ∨ _ ∨ _))

instance [Fintype ι] (held : ι → OpenFiles) (x : Inode) : Decidable (Locked held x) :=
  inferInstanceAs (Decidable (∃ _, _))

/-- What a request does. Errors of other kinds may come from the file system at any time. A directory that changes
while it is read may give any names: one that is not there is told so when it is opened. -/
inductive Exec (g : Directory) (held : ι → OpenFiles) (i : ι) :
    (op : AtomicOp) → AtomicAnswer op → Directory → OpenFiles → Prop where
  | readDir (entries : List (Except IoError String)) : (∀ e, .error e ∈ entries → ∃ code, e = .other code) →
      Exec g held i .readDir (.ok entries) g (held i)
  | readDirFails (code) : Exec g held i .readDir (.error (.other code)) g (held i)
  | openProbe {name x} : g.names name = some x →
      Exec g held i (.openProbe name) (.ok ()) g { held i with probe := some ⟨name, x, false, false⟩ }
  | openProbeGone {name} : g.names name = none → Exec g held i (.openProbe name) (.error .notFound) g (held i)
  | openProbeFails {name} (code) : Exec g held i (.openProbe name) (.error (.other code)) g (held i)
  | lockProbe {p} : (held i).probe = some p → ¬ Locked held p.inode →
      Exec g held i .lockProbe (.ok ()) g { held i with probe := some { p with locked := true } }
  | lockProbeHeld {p} : (held i).probe = some p → Locked held p.inode →
      Exec g held i .lockProbe (.error .wouldBlock) g (held i)
  | lockProbeFails (code) : Exec g held i .lockProbe (.error (.other code)) g (held i)
  | removeFile {name x} : g.names name = some x → Exec g held i (.removeFile name) (.ok ()) (g.unlink name)
      { held i with probe := (held i).probe.map fun p => { p with removed := true } }
  | removeFileGone {name} : g.names name = none → Exec g held i (.removeFile name) (.error .notFound) g (held i)
  | removeFileFails {name} (code) : Exec g held i (.removeFile name) (.error (.other code)) g (held i)
  | closeProbe : Exec g held i .closeProbe () g { held i with probe := none }
  | createTemp {name} : IsTemp name → g.names name = none →
      Exec g held i .createTemp (.ok ()) (g.create name) { held i with temp := some ⟨name, g.next, false, []⟩ }
  | createTempFails (code) : Exec g held i .createTemp (.error (.other code)) g (held i)
  | lockTemp {t} : (held i).temp = some t → ¬ Locked held t.inode →
      Exec g held i .lockTemp (.ok ()) g { held i with temp := some { t with locked := true } }
  | lockTempHeld {t} : (held i).temp = some t → Locked held t.inode →
      Exec g held i .lockTemp (.error .wouldBlock) g (held i)
  | lockTempFails (code) : Exec g held i .lockTemp (.error (.other code)) g (held i)
  | write {t chunk} : (held i).temp = some t → Exec g held i (.write chunk) (.ok ()) (g.append t.inode chunk)
      { held i with temp := some { t with written := t.written ++ chunk } }
  | writeFails {t chunk part} (code) : (held i).temp = some t → part <+: chunk →
      Exec g held i (.write chunk) (.error (.other code)) (g.append t.inode part)
        { held i with temp := some { t with written := t.written ++ part } }
  | syncTemp : Exec g held i .syncTemp (.ok ()) g (held i)
  | syncTempFails (code) : Exec g held i .syncTemp (.error (.other code)) g (held i)
  | persist {t x target} : (held i).temp = some t → (h : g.names t.name = some x) →
      Exec g held i (.persist target) (.ok ()) (g.rename t.name target x h)
        { held i with temp := none, kept := if t.locked then some t.inode else none }
  | persistGone {t target} : (held i).temp = some t → g.names t.name = none →
      Exec g held i (.persist target) (.error .notFound) g (held i)
  | persistFails {target} (code) : Exec g held i (.persist target) (.error (.other code)) g (held i)
  | dropTemp {t} : (held i).temp = some t → Exec g held i .dropTemp () (g.unlink t.name) { held i with temp := none }
  | dropTempFails : Exec g held i .dropTemp () g { held i with temp := none }
  | syncParentDir : Exec g held i .syncParentDir (.ok ()) g (held i)
  | syncParentDirFails (code) : Exec g held i .syncParentDir (.error (.other code)) g (held i)

end OpenFiles

/-- Processes that write into one directory. -/
def fileSystem (ι : Type) : Kernel AtomicOp AtomicAnswer Directory OpenFiles ι := ⟨OpenFiles.Exec, {}⟩

end Falach
