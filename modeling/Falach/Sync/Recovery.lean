import Falach.Sync.Machine
/-!
# Recoverability

The vault file is copied before the first save of a run and the copy is not touched again, so its old bytes can be
had back at every moment, whatever the transport answers and wherever the run is cut off.
-/

namespace Falach

open Keepass Program

namespace Machine

variable {encrypts : Database → Bytes → Prop} {openFromBytes : Bytes → Except SyncError Database}
  {sha256 : Bytes → String} {last : SyncPointers} {m m' : Machine} {path : String} {bytes : Bytes}

/-- The bytes are in the vault file or in the backup. -/
def Recoverable (path : String) (bytes : Bytes) (m : Machine) : Prop :=
  m.path = path ∧ (m.file = some bytes ∨ m.backup = some bytes)

theorem Recoverable.of_file (hp : m.path = path) (h : m.file = some bytes) : Recoverable path bytes m := ⟨hp, .inl h⟩

theorem Recoverable.of_backup (hp : m.path = path) (h : m.backup = some bytes) : Recoverable path bytes m :=
  ⟨hp, .inr h⟩

/-- From `m`, the bytes stay recoverable whatever the program asks for: a save comes only when the backup has them. -/
abbrev Guards {α : Type} (encrypts : Database → Bytes → Prop) (path : String) (bytes : Bytes) (m : Machine)
    (p : SyncRun α) : Prop :=
  Behaves encrypts (fun _ _ _ _ => True) (fun m op => Recoverable path bytes m ∧ (op = .save → m.backup = some bytes))
    (fun m _ => Recoverable path bytes m) (fun m _ => Recoverable path bytes m) m p

section

open SyncRun

theorem put_guards {α : Type} {new : Bytes} {ifMatch : Option ObjectVersion}
    {f : Except SyncError ObjectVersion → SyncRun α} (h : Recoverable path bytes m)
    (go : ∀ a, Guards encrypts path bytes (m.ask (.putConditional new ifMatch)) (f a)) :
    Guards encrypts path bytes m (request Answer (.putConditional new ifMatch) >>= f) :=
  put_behaves ⟨h, nofun⟩ go

theorem pushOnly_guards {prevRemote : Option ObjectVersion} {localBytes : Bytes} (h : Recoverable path bytes m) :
    Guards encrypts path bytes m (pushOnly sha256 prevRemote localBytes) :=
  put_guards (f := fun r => ofExcept r >>= fun n : ObjectVersion =>
    (pure (.pushed prevRemote.isNone, ⟨some n.tag, some (sha256 localBytes)⟩) : SyncRun (SyncOutcome × SyncPointers))) h
    fun a => by cases a <;> exact h

/-- Once the backup has the bytes, a save and what is read after it leave them there. -/
theorem save_guards {α : Type} {f : Bytes → SyncRun α} (hp : m.path = path) (hb : m.backup = some bytes)
    (go : ∀ new m', m'.path = path → m'.backup = some bytes → Guards encrypts path bytes m' (f new)) :
    Guards encrypts path bytes m (save >>= fun _ => readVaultBytes >>= f) := by
  have saved : ∀ new, Recoverable path bytes ((m.ask .save).saved new) := fun new => .of_backup hp (by simpa using hb)
  refine save_behaves ⟨.of_backup hp hb, fun _ => hb⟩ (fun new _ => ?_) (fun new _ _ => saved new)
    fun _ => .of_backup hp hb
  exact readVaultBytes_behaves ⟨saved new, nofun⟩ (fun read _ => go read _ hp (by simpa using hb)) fun _ => saved new

/-- The backup is taken while the file still has the bytes. -/
theorem backup_guards {α : Type} {f : String → SyncRun α} (hp : m.path = path) (hf : m.file = some bytes)
    (go : ∀ backupPath m', m'.path = path → m'.backup = some bytes → Guards encrypts path bytes m' (f backupPath)) :
    Guards encrypts path bytes m (snapshotPreMerge >>= f) := by
  have h : Recoverable path bytes m := .of_file hp hf
  refine snapshotPreMerge_behaves ⟨h, nofun⟩ (fun bytes' hb => ?_) (fun _ _ _ => .of_file hp (by simpa using hf))
    fun _ => h
  obtain rfl : bytes = bytes' := by simpa [hf] using hb
  exact go _ _ hp (by simp)

theorem fastReplace_guards {prevRemote : Option ObjectVersion} (hp : m.path = path) (hf : m.file = some bytes) :
    Guards encrypts path bytes m (fastReplace openFromBytes sha256 last prevRemote) := by
  have h : Recoverable path bytes m := .of_file hp hf
  refine fetchIfChanged_behaves ⟨h, nofun⟩ (fun s _ => ?_) fun _ => h
  cases s with
  | none => exact h
  | some snapshot =>
    refine Upholds.ofExcept (fun remoteDb _ => ?_) fun _ _ => h
    refine refuseOtherKdf_behaves ⟨h, nofun⟩ (fun _ => ?_) h
    refine backup_guards hp hf fun _ m' hp' hb' => ?_
    have h' : Recoverable path bytes m' := .of_backup hp' hb'
    refine replaceDatabase_behaves ⟨h', nofun⟩ (fun _ => ?_) fun _ => h'
    exact save_guards hp' hb' fun _ _ hp'' hb'' => .of_backup hp'' hb''

/-- The backup was taken before the loop and no round touches it. -/
theorem mergeLoop_guards {backupPath : String} {max left : Nat} (hp : m.path = path) (hb : m.backup = some bytes) :
    Guards encrypts path bytes m (mergeLoop openFromBytes sha256 backupPath max left) := by
  induction left generalizing m with
  | zero => exact .of_backup hp hb
  | succ left ih =>
    have h : Recoverable path bytes m := .of_backup hp hb
    refine fetchIfChanged_behaves ⟨h, nofun⟩ (fun s _ => ?_) fun _ => h
    cases s with
    | none => exact h
    | some snapshot =>
      refine Upholds.ofExcept (fun remoteDb _ => ?_) fun _ _ => h
      refine refuseOtherKdf_behaves ⟨h, nofun⟩ (fun _ => ?_) h
      refine reconcile_behaves ⟨h, nofun⟩ (fun _ merged delta _ _ => ?_) fun _ _ _ _ _ => h
      refine save_guards hp hb fun new m' hp' hb' => put_guards (.of_backup hp' hb') fun a => ?_
      cases a with
      | ok n => exact .of_backup hp' hb'
      | error e =>
        dsimp only
        split
        · exact .of_backup hp' hb'
        split
        · exact .of_backup hp' hb'
        · exact ih hp' hb'

theorem runStateMachine_guards (maxRetries : Nat) (hf : m.file = some bytes) :
    Guards encrypts m.path bytes m (runStateMachine openFromBytes sha256 last maxRetries) := by
  have h : Recoverable m.path bytes m := .of_file rfl hf
  refine head_behaves ⟨h, nofun⟩ (fun v _ => ?_) fun _ => h
  refine readVaultBytes_behaves ⟨h, nofun⟩ (fun localBytes _ => ?_) fun _ => h
  dsimp only
  split
  · exact h
  · exact pushOnly_guards h
  · exact fastReplace_guards rfl hf
  · exact backup_guards rfl hf fun _ _ hp hb => mergeLoop_guards hp hb

end

/-- The bytes the vault file has before a run are in it or in its backup at every moment of the run, wherever it is
cut off. -/
theorem vault_recoverable {maxRetries : Nat} (hf : m.file = some bytes)
    (visit : Visits (Exec encrypts) m (SyncRun.runStateMachine openFromBytes sha256 last maxRetries) m') :
    m'.disk.lookup m.path = some bytes ∨ m'.disk.lookup (backupPathFor m.path) = some bytes := by
  have visit : Visits (fun m op a m' => Exec encrypts m op a m' ∧ True) m _ m' := visit.mono fun h => ⟨h, trivial⟩
  obtain ⟨hp, h⟩ := (runStateMachine_guards maxRetries hf).visits visit
  rwa [file, backup, hp] at h

/-- An empty vault in a file of one byte. -/
def fresh : Machine where
  path := "work.kdbx"
  disk := Finmap.singleton "work.kdbx" [1]
  database := .withData ⟨.aes 1⟩ 0 0

theorem vault_recoverable_replaced : ∃ m', Visits (Exec fun _ _ => True) fresh
    (SyncRun.runStateMachine (fun _ => .ok fresh.database) (fun _ => "hash") ⟨none, some "hash"⟩ 3) m' ∧
    m'.file = some [3] ∧ (m'.disk.lookup "work.kdbx" = some [1] ∨
      m'.disk.lookup (backupPathFor "work.kdbx") = some [1]) := by
  have file : fresh.file = some [1] := rfl
  have visit : Visits (Exec fun _ _ => True) fresh
      (SyncRun.runStateMachine (fun _ => .ok fresh.database) (fun _ => "hash") ⟨none, some "hash"⟩ 3) _ :=
    .later (.head (.ok (some ⟨"new"⟩))) <| .later (.read file) <| .later (.fetch (.ok (some ⟨⟨"new"⟩, [2]⟩))) <|
      .later .database <| .later (.backup file) <| .later (.replace rfl) <| .later (@Exec.save _ _ [3] trivial) .here
  exact ⟨_, visit, rfl, vault_recoverable file visit⟩

end Machine

end Falach
