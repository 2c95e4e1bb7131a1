import Falach.Sync.Passes
import Falach.Sync.Recovery
/-!
# Runs that fail

What a run that fails has done to the vault file, the backup and the database in memory.
-/

namespace Falach

open Keepass Program

namespace Machine

variable {encrypts : Database → Bytes → Prop} {openFromBytes : Bytes → Except SyncError Database}
  {sha256 : Bytes → String} {last : SyncPointers} {maxRetries : Nat} {m m' start : Machine}

/-- The disk and the database in memory are as they were. -/
def Untouched (m m' : Machine) : Prop := m'.disk = m.disk ∧ m'.database = m.database

/-! ## A mismatch of the key derivation -/

/-- No backup and no save so far. -/
structure Early (start m : Machine) : Prop where
  path : m.path = start.path
  untouched : Untouched start m
  no_backup : Op.snapshotPreMerge ∉ m.asked
  no_save : Op.save ∉ m.asked

/-- The vault file copied to the backup, and nothing else. -/
structure Copied (start m : Machine) : Prop where
  path : m.path = start.path
  disk : ∃ bytes, start.file = some bytes ∧ m.disk = start.disk.insert (backupPathFor start.path) bytes
  database : m.database = start.database
  backup : Op.snapshotPreMerge ∈ m.asked
  no_save : Op.save ∉ m.asked

/-- The vault file written. -/
structure Rewritten (encrypts : Database → Bytes → Prop) (start m : Machine) : Prop where
  path : m.path = start.path
  file : ∃ db bytes, encrypts db bytes ∧ m.file = some bytes
  save : Op.save ∈ m.asked

/-- How far a run can have come when it finds a mismatch. -/
def Found (encrypts : Database → Bytes → Prop) (start m : Machine) : Prop :=
  Early start m ∨ Copied start m ∨ Rewritten encrypts start m

theorem Early.ask (h : Early start m) (op : Op) (hb : op ≠ .snapshotPreMerge) (hs : op ≠ .save) :
    Early start (m.ask op) :=
  ⟨h.path, h.untouched, by simp [h.no_backup, hb.symm], by simp [h.no_save, hs.symm]⟩

theorem Copied.ask (h : Copied start m) (op : Op) (hs : op ≠ .save) : Copied start (m.ask op) :=
  ⟨h.path, h.disk, h.database, by simp [h.backup], by simp [h.no_save, hs.symm]⟩

theorem Rewritten.ask (h : Rewritten encrypts start m) (op : Op) : Rewritten encrypts start (m.ask op) :=
  ⟨h.path, h.file, by simp [h.save]⟩

theorem Rewritten.hold (h : Rewritten encrypts start m) (db : Database) : Rewritten encrypts start (m.hold db) :=
  ⟨h.path, h.file, h.save⟩

theorem Early.backedUp (h : Early start m) {bytes : Bytes} (hb : m.file = some bytes) :
    Copied start ((m.ask .snapshotPreMerge).backedUp bytes) where
  path := h.path
  disk := by
    refine ⟨bytes, ?_, ?_⟩
    · rw [← hb, file, file, h.untouched.1, h.path]
    · rw [← h.untouched.1, ← h.path]; rfl
  database := h.untouched.2
  backup := by simp
  no_save := by simp [h.no_save]

theorem saved_rewritten (hp : m.path = start.path) {bytes : Bytes} (he : encrypts m.database bytes) :
    Rewritten encrypts start ((m.ask .save).saved bytes) := ⟨hp, ⟨_, bytes, he, by simp⟩, by simp⟩

/-- From `m`, a mismatch is found only where a run from `start` can have come by then. -/
abbrev Finds {α : Type} (encrypts : Database → Bytes → Prop) (start m : Machine) (p : SyncRun α) : Prop :=
  Behaves encrypts (fun _ _ _ _ => True) (fun _ _ => True) (fun _ _ => True)
    (fun m e => e = .masterPasswordMismatch → Found encrypts start m) m p

section

open SyncRun

theorem backupError_ne (e : String ⊕ VaultError) : backupError e ≠ .masterPasswordMismatch := by
  cases e <;> nofun

theorem fastReplace_finds {prevRemote : Option ObjectVersion} (h : Early start m) :
    Finds encrypts start m (fastReplace openFromBytes sha256 last prevRemote) := by
  have hf := h.ask (.fetchIfChanged prevRemote) nofun nofun
  refine fetchIfChanged_behaves trivial (fun s _ => ?_) fun _ _ => .inl hf
  cases s with
  | none => trivial
  | some snapshot =>
    refine Upholds.ofExcept (fun remoteDb _ => ?_) fun _ _ _ => .inl hf
    have hd := hf.ask .database nofun nofun
    refine refuseOtherKdf_behaves trivial (fun _ => ?_) fun _ => .inl hd
    refine snapshotPreMerge_behaves trivial (fun bytes _ => ?_) (fun _ e _ he => absurd he (backupError_ne e))
      fun e he => absurd he (backupError_ne e)
    refine replaceDatabase_behaves trivial (fun _ => ?_) fun _ => nofun
    refine save_behaves trivial (fun _ _ => ?_) (fun _ _ _ => nofun) fun _ => nofun
    exact readVaultBytes_behaves trivial (fun _ _ => trivial) fun _ => nofun

/-- A round that goes on has saved. -/
theorem mergeLoop_finds {backupPath : String} {max left : Nat} (h : Copied start m ∨ Rewritten encrypts start m) :
    Finds encrypts start m (mergeLoop openFromBytes sha256 backupPath max left) := by
  have ask : ∀ {m : Machine}, Copied start m ∨ Rewritten encrypts start m → ∀ op : Op, op ≠ .save →
      Copied start (m.ask op) ∨ Rewritten encrypts start (m.ask op) := fun h op hs =>
    h.imp (·.ask op hs) (·.ask op)
  induction left generalizing m with
  | zero => nofun
  | succ left ih =>
    have hf := ask h (.fetchIfChanged none) nofun
    refine fetchIfChanged_behaves trivial (fun s _ => ?_) fun _ _ => .inr hf
    cases s with
    | none => nofun
    | some snapshot =>
      refine Upholds.ofExcept (fun remoteDb _ => ?_) fun _ _ _ => .inr hf
      refine refuseOtherKdf_behaves trivial (fun _ => ?_) fun _ => .inr (ask hf .database nofun)
      have hp : m.path = start.path := h.elim (·.path) (·.path)
      refine reconcile_behaves trivial (fun _ merged delta _ _ => ?_) fun _ _ _ _ _ => nofun
      refine save_behaves trivial (fun bytes he => ?_) (fun _ _ _ => nofun) fun _ => nofun
      refine readVaultBytes_behaves trivial (fun read _ => put_behaves trivial fun a => ?_) fun _ => nofun
      have hw := ((saved_rewritten (by
        exact hp) he).ask .readVaultBytes).ask (.putConditional read (some snapshot.version))
      cases a with
      | ok n => trivial
      | error e =>
        dsimp only
        split
        · exact fun _ => .inr (.inr hw)
        split
        · nofun
        · exact ih (.inr hw)

theorem runStateMachine_finds (h : Early start m) :
    Finds encrypts start m (runStateMachine openFromBytes sha256 last maxRetries) := by
  have hh := h.ask .head nofun nofun
  refine head_behaves trivial (fun v _ => ?_) fun _ _ => .inl hh
  have hr := hh.ask .readVaultBytes nofun nofun
  refine readVaultBytes_behaves trivial (fun localBytes _ => ?_) fun _ => nofun
  dsimp only
  split
  · trivial
  · refine put_behaves (f := fun r => ofExcept r >>= fun n : ObjectVersion =>
      (pure (.pushed _, ⟨some n.tag, some (sha256 localBytes)⟩) : SyncRun (SyncOutcome × SyncPointers))) trivial
        fun a => ?_
    cases a with
    | ok n => trivial
    | error e => exact fun _ => .inl (hr.ask _ nofun nofun)
  · exact fastReplace_finds hr
  · exact snapshotPreMerge_behaves trivial (fun bytes hb => mergeLoop_finds (.inl (hr.backedUp hb)))
      (fun _ e _ he => absurd he (backupError_ne e)) fun e he => absurd he (backupError_ne e)

end

/-- A run that ends in a mismatch has left disk and memory alone exactly if it has saved nothing before and a backup
it has taken was there already. A save never writes the bytes the file had: it draws a new key and nonce. -/
theorem mismatch_touches_nothing_iff (hasked : m.asked = [])
    (fresh : ∀ bytes, m.file = some bytes → ∀ db, ¬encrypts db bytes)
    (run : Runs (Exec encrypts) Panics m (SyncRun.runStateMachine openFromBytes sha256 last maxRetries) m'
      (.failed .masterPasswordMismatch)) :
    Untouched m m' ↔ Op.save ∉ m'.asked ∧ (Op.snapshotPreMerge ∈ m'.asked → m.backup = m.file) := by
  have early : Early m m := ⟨rfl, ⟨rfl, rfl⟩, by simp [hasked], by simp [hasked]⟩
  have found := (runStateMachine_finds early).failed (run.mono fun h => ⟨h, trivial⟩) rfl
  rcases found with h | h | h
  · exact iff_of_true h.untouched ⟨h.no_save, fun hb => absurd hb h.no_backup⟩
  · obtain ⟨bytes, hb, hd⟩ := h.disk
    have backup : m'.backup = m.file := by
      rw [Machine.backup, h.path, hd, Finmap.lookup_insert, hb]
    constructor
    · intro hu
      refine ⟨h.no_save, fun _ => ?_⟩
      rw [← backup, Machine.backup, Machine.backup, hu.1, h.path]
    · rintro ⟨-, hbf⟩
      have held : m.disk.lookup (backupPathFor m.path) = some bytes := (hbf h.backup).trans hb
      refine ⟨Finmap.ext_lookup fun path => ?_, h.database⟩
      rw [hd, Finmap.lookup_insert_eq]
      split
      · subst_vars; exact held.symm
      · rfl
  · obtain ⟨db, bytes, he, hf⟩ := h.file
    refine iff_of_false (fun hu => ?_) fun hs => hs.1 h.save
    rw [file, hu.1, h.path] at hf
    exact fresh bytes hf db he

/-- The vault `fresh` with another number of rounds. -/
def otherKdf : Database := { fresh.database with config := ⟨.aes 2⟩ }

/-- The saves of the examples write two bytes. -/
abbrev TwoBytes (_ : Database) (bytes : Bytes) : Prop := bytes.length = 2

theorem mismatch_touches_nothing_iff_unchanged : ∃ m', Runs (Exec TwoBytes) Panics fresh
    (SyncRun.runStateMachine (fun _ => .ok otherKdf) (fun _ => "hash") ⟨none, some "hash"⟩ 3) m'
    (.failed .masterPasswordMismatch) ∧
    (Untouched fresh m' ↔ Op.save ∉ m'.asked ∧ (Op.snapshotPreMerge ∈ m'.asked → fresh.backup = fresh.file)) := by
  have file : fresh.file = some [1] := rfl
  have run : Runs (Exec TwoBytes) Panics fresh
      (SyncRun.runStateMachine (fun _ => .ok otherKdf) (fun _ => "hash") ⟨none, some "hash"⟩ 3) _
      (.failed .masterPasswordMismatch) :=
    .ask (.head (.ok (some ⟨"new"⟩))) <| .ask (.read file) <| .ask (.fetch (.ok (some ⟨⟨"new"⟩, [2]⟩))) <|
      .ask .database .fail
  refine ⟨_, run, mismatch_touches_nothing_iff rfl (fun bytes hb db he => ?_) run⟩
  obtain rfl : bytes = [1] := by simpa [file] using hb.symm
  exact absurd (show [(1 : UInt8)].length = 2 from he) (by decide)

/-- With both sides changed the backup comes before the check. -/
theorem mismatch_overwrites_backup : ∃ m', Runs (Exec TwoBytes) Panics fresh
    (SyncRun.runStateMachine (fun _ => .ok otherKdf) (fun _ => "hash") ⟨none, none⟩ 3) m'
    (.failed .masterPasswordMismatch) ∧ fresh.backup = none ∧ m'.backup = some [1] := by
  have file : fresh.file = some [1] := rfl
  have run : Runs (Exec TwoBytes) Panics fresh
      (SyncRun.runStateMachine (fun _ => .ok otherKdf) (fun _ => "hash") ⟨none, none⟩ 3) _
      (.failed .masterPasswordMismatch) :=
    .ask (.head (.ok (some ⟨"new"⟩))) <| .ask (.read file) <| .ask (.backup file) <|
      .ask (.fetch (.ok (some ⟨⟨"new"⟩, [2]⟩))) <| .ask .database .fail
  exact ⟨_, run, rfl, rfl⟩

/-! ## What is left in memory -/

/-- The database in memory is the one from before the call, or the one last written. -/
def Settled (start m : Machine) : Prop := m.database = start.database ∨ m.written = some m.database

/-- What a run that failed with the error may leave in memory. -/
inductive AfterError (start m : Machine) : SyncError → Prop where
  | settled {e : SyncError} : Settled start m → AfterError start m e
  /-- A reconcile of the database from before the call, or of the one last written, refused midway. -/
  | refused {env : Env} {db remote : Database} {reason : MergeError} {backupPath : String} :
      db = start.database ∨ m.written = some db → Falach.reconcile env db remote = .error (.merge reason m.database) →
      AfterError start m (.unresolvable reason backupPath)
  /-- The save of a merged or replaced database failed. -/
  | unsaved {e : VaultError} : m.asked.getLast? = some .save → AfterError start m (.vault e)

/-- From `m`, an error leaves in memory what `AfterError` says. -/
abbrev Leaves {α : Type} (encrypts : Database → Bytes → Prop) (start m : Machine) (p : SyncRun α) : Prop :=
  Behaves encrypts (fun _ _ _ _ => True) (fun _ _ => True) (fun _ _ => True) (AfterError start) m p

section

open SyncRun

variable {α : Type}

theorem save_leaves {f : Bytes → SyncRun α}
    (go : ∀ new m', m'.path = m.path → Settled start m' → Leaves encrypts start m' (f new)) :
    Leaves encrypts start m (save >>= fun _ => readVaultBytes >>= f) := by
  have written : ∀ bytes, Settled start ((m.ask .save).saved bytes) := fun _ => .inr rfl
  refine save_behaves trivial (fun bytes _ => ?_) (fun bytes _ _ => .settled (written bytes))
    fun _ => .unsaved (by simp)
  exact readVaultBytes_behaves trivial (fun read _ => go read _ rfl (written bytes)) fun _ => .settled (written bytes)

theorem fastReplace_leaves {prevRemote : Option ObjectVersion} (h : Settled start m) :
    Leaves encrypts start m (fastReplace openFromBytes sha256 last prevRemote) := by
  refine fetchIfChanged_behaves trivial (fun s _ => ?_) fun _ => .settled h
  cases s with
  | none => trivial
  | some snapshot =>
    refine Upholds.ofExcept (fun remoteDb _ => ?_) fun _ _ => .settled h
    refine refuseOtherKdf_behaves trivial (fun _ => ?_) (.settled h)
    refine snapshotPreMerge_behaves trivial (fun _ _ => ?_) (fun _ _ _ => .settled h) fun _ => .settled h
    refine replaceDatabase_behaves trivial (fun _ => ?_) fun _ => .settled h
    exact save_leaves fun _ _ _ _ => trivial

/-- Every round begins with what was there before the call or what the last round saved. -/
theorem mergeLoop_leaves {backupPath : String} {max left : Nat} (h : Settled start m) :
    Leaves encrypts start m (mergeLoop openFromBytes sha256 backupPath max left) := by
  induction left generalizing m with
  | zero => exact .settled h
  | succ left ih =>
    refine fetchIfChanged_behaves trivial (fun s _ => ?_) fun _ => .settled h
    cases s with
    | none => exact .settled h
    | some snapshot =>
      refine Upholds.ofExcept (fun remoteDb _ => ?_) fun _ _ => .settled h
      refine refuseOtherKdf_behaves trivial (fun _ => ?_) (.settled h)
      refine reconcile_behaves trivial (fun _ merged delta _ _ => ?_) fun _ _ _ he _ => .refused h he
      refine save_leaves fun read m' _ h' => put_behaves trivial fun a => ?_
      cases a with
      | ok n => trivial
      | error e =>
        dsimp only
        split
        · exact .settled h'
        split
        · exact .settled h'
        · exact ih h'

theorem runStateMachine_leaves (h : Settled start m) :
    Leaves encrypts start m (runStateMachine openFromBytes sha256 last maxRetries) := by
  refine head_behaves trivial (fun v _ => ?_) fun _ => .settled h
  refine readVaultBytes_behaves trivial (fun localBytes _ => ?_) fun _ => .settled h
  dsimp only
  split
  · trivial
  · refine put_behaves (f := fun r => ofExcept r >>= fun n : ObjectVersion =>
      (pure (.pushed _, ⟨some n.tag, some (sha256 localBytes)⟩) : SyncRun (SyncOutcome × SyncPointers))) trivial
        fun a => ?_
    cases a with
    | ok n => trivial
    | error e => exact .settled h
  · exact fastReplace_leaves h
  · exact snapshotPreMerge_behaves trivial (fun _ _ => mergeLoop_leaves h) (fun _ _ _ => .settled h) fun _ => .settled h

end

/-- After an error the database in memory is the one from before the call or the one last written, unless a reconcile
refused midway or a save failed. -/
theorem error_leaves_settled {e : SyncError}
    (run : Runs (Exec encrypts) Panics m.begun (SyncRun.runStateMachine openFromBytes sha256 last maxRetries) m'
      (.failed e)) : AfterError m.begun m' e :=
  (runStateMachine_leaves (.inl rfl)).failed (run.mono fun h => ⟨h, trivial⟩)

/-- Entry 5 of the title given, last changed at 10, and an entry 6 beside it. -/
def withNew (title : String) : Database where
  config := ⟨.aes 0⟩
  root := 0
  entries := (Finmap.singleton 5 (titled title 10)).insert 6 { titled "new" 10 with id := 6 }
  groups := Finmap.singleton 0 { id := 0, parent := none, entries := {6, 5} }

/-- The vault of entry 5 alone. -/
def edited : Machine := { fresh with database := single (titled "local" 10) }

theorem refused_midway : reconcile (Env.inOrder 1000) edited.database (withNew "remote") =
    .error (.merge (.entryModificationTimeNotUpdated 5) (withNew "local")) := by decide +kernel

/-- A reconcile that refuses entry 5 has added entry 6, and a save that fails leaves the replaced database unsaved. -/
theorem error_leaves_unsaved :
    (∃ m', Runs (Exec TwoBytes) Panics edited.begun
      (SyncRun.runStateMachine (fun _ => .ok (withNew "remote")) (fun _ => "hash") ⟨none, none⟩ 3) m'
      (.failed (.unresolvable (.entryModificationTimeNotUpdated 5) "work.kdbx.bak")) ∧
      m'.database ≠ edited.database ∧ m'.written = none) ∧
    ∃ m', Runs (Exec TwoBytes) Panics edited.begun
      (SyncRun.runStateMachine (fun _ => .ok (withNew "remote")) (fun _ => "hash") ⟨none, some "hash"⟩ 3) m'
      (.failed (.vault (.io "work.kdbx" "disk full"))) ∧
      m'.database ≠ edited.database ∧ m'.written = none := by
  have file : edited.begun.file = some [1] := rfl
  have midway : Runs (Exec TwoBytes) Panics edited.begun
      (SyncRun.runStateMachine (fun _ => .ok (withNew "remote")) (fun _ => "hash") ⟨none, none⟩ 3) _
      (.failed (.unresolvable (.entryModificationTimeNotUpdated 5) "work.kdbx.bak")) :=
    .ask (.head (.ok (some ⟨"new"⟩))) <| .ask (.read file) <| .ask (.backup file) <|
      .ask (.fetch (.ok (some ⟨⟨"new"⟩, [2]⟩))) <| .ask .database <|
      .ask (.reconcileFails (Env.inOrder 1000) refused_midway) .fail
  have unsaved : Runs (Exec TwoBytes) Panics edited.begun
      (SyncRun.runStateMachine (fun _ => .ok (withNew "remote")) (fun _ => "hash") ⟨none, some "hash"⟩ 3) _
      (.failed (.vault (.io "work.kdbx" "disk full"))) :=
    .ask (.head (.ok (some ⟨"new"⟩))) <| .ask (.read file) <| .ask (.fetch (.ok (some ⟨⟨"new"⟩, [2]⟩))) <|
      .ask .database <| .ask (.backup file) <| .ask (.replace rfl) <| .ask (.saveFails _) .fail
  exact ⟨⟨_, midway, by decide +kernel, rfl⟩, _, unsaved, by decide +kernel, rfl⟩

theorem error_leaves_settled_refused : ∃ m', AfterError edited.begun m'
    (.unresolvable (.entryModificationTimeNotUpdated 5) "work.kdbx.bak") ∧ m'.database = withNew "local" := by
  have file : edited.begun.file = some [1] := rfl
  have run : Runs (Exec TwoBytes) Panics edited.begun
      (SyncRun.runStateMachine (fun _ => .ok (withNew "remote")) (fun _ => "hash") ⟨none, none⟩ 3) _
      (.failed (.unresolvable (.entryModificationTimeNotUpdated 5) "work.kdbx.bak")) :=
    .ask (.head (.ok (some ⟨"new"⟩))) <| .ask (.read file) <| .ask (.backup file) <|
      .ask (.fetch (.ok (some ⟨⟨"new"⟩, [2]⟩))) <| .ask .database <|
      .ask (.reconcileFails (Env.inOrder 1000) refused_midway) .fail
  exact ⟨_, error_leaves_settled run, rfl⟩

end Machine

end Falach
