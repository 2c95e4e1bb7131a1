import Falach.Sync.StateMachine
/-!
# One machine

The vault that a run works on, in memory and on disk, beside a transport that may answer anything. `Vault::save`
and the backup copy each replace one file at once; when one of them fails, the file may have been replaced or not.

`written` and `asked` are recorded for the proofs.
-/

namespace Falach

open Keepass Program

/-- `backup_path_for`. The path is that of a file, so it does not end in a separator. -/
def backupPathFor (path : String) : String := path ++ ".bak"

theorem backupPathFor_ne (path : String) : backupPathFor path ≠ path := by
  intro h
  have := congrArg String.length h
  simp [backupPathFor] at this

/-- The errors of `snapshot_pre_merge`: that of a read or write that failed, or another one of the vault layer. -/
def backupError : String ⊕ VaultError → SyncError
  | .inl source => .backupFailed source
  | .inr other => .vault other

structure Machine where
  path : String
  disk : HashMap String Bytes
  /-- `vault.database()`. -/
  database : Database
  /-- The database last written to the vault path in this run. -/
  written : Option Database := none
  /-- The requests of this run so far. -/
  asked : List Op := []

namespace Machine

def file (m : Machine) : Option Bytes := m.disk.lookup m.path
def backup (m : Machine) : Option Bytes := m.disk.lookup (backupPathFor m.path)

/-- The machine as a call begins on it. -/
def begun (m : Machine) : Machine := { m with written := none, asked := [] }

def ask (m : Machine) (op : Op) : Machine := { m with asked := m.asked ++ [op] }

/-- The database in memory replaced. -/
def hold (m : Machine) (db : Database) : Machine := { m with database := db }

/-- The vault file replaced by an encryption of the database in memory. -/
def saved (m : Machine) (bytes : Bytes) : Machine :=
  { m with disk := m.disk.insert m.path bytes, written := some m.database }

/-- The backup replaced by the bytes of the vault file. -/
def backedUp (m : Machine) (bytes : Bytes) : Machine :=
  { m with disk := m.disk.insert (backupPathFor m.path) bytes }

section

variable (m : Machine) (op : Op) (db : Database) (bytes : Bytes)

@[simp] theorem path_ask : (m.ask op).path = m.path := rfl
@[simp] theorem disk_ask : (m.ask op).disk = m.disk := rfl
@[simp] theorem database_ask : (m.ask op).database = m.database := rfl
@[simp] theorem written_ask : (m.ask op).written = m.written := rfl
@[simp] theorem asked_ask : (m.ask op).asked = m.asked ++ [op] := rfl
@[simp] theorem file_ask : (m.ask op).file = m.file := rfl
@[simp] theorem backup_ask : (m.ask op).backup = m.backup := rfl

@[simp] theorem path_hold : (m.hold db).path = m.path := rfl
@[simp] theorem disk_hold : (m.hold db).disk = m.disk := rfl
@[simp] theorem database_hold : (m.hold db).database = db := rfl
@[simp] theorem written_hold : (m.hold db).written = m.written := rfl
@[simp] theorem asked_hold : (m.hold db).asked = m.asked := rfl
@[simp] theorem file_hold : (m.hold db).file = m.file := rfl
@[simp] theorem backup_hold : (m.hold db).backup = m.backup := rfl

@[simp] theorem path_saved : (m.saved bytes).path = m.path := rfl
@[simp] theorem database_saved : (m.saved bytes).database = m.database := rfl
@[simp] theorem written_saved : (m.saved bytes).written = some m.database := rfl
@[simp] theorem asked_saved : (m.saved bytes).asked = m.asked := rfl
@[simp] theorem file_saved : (m.saved bytes).file = some bytes := Finmap.lookup_insert m.disk
@[simp] theorem backup_saved : (m.saved bytes).backup = m.backup :=
  Finmap.lookup_insert_of_ne m.disk (backupPathFor_ne m.path)

@[simp] theorem path_backedUp : (m.backedUp bytes).path = m.path := rfl
@[simp] theorem database_backedUp : (m.backedUp bytes).database = m.database := rfl
@[simp] theorem written_backedUp : (m.backedUp bytes).written = m.written := rfl
@[simp] theorem asked_backedUp : (m.backedUp bytes).asked = m.asked := rfl
@[simp] theorem backup_backedUp : (m.backedUp bytes).backup = some bytes := Finmap.lookup_insert m.disk
@[simp] theorem file_backedUp : (m.backedUp bytes).file = m.file :=
  Finmap.lookup_insert_of_ne m.disk (backupPathFor_ne m.path).symm

end

/-- What a request does; `encrypts db bytes` says that a save of `db` may write `bytes`. -/
inductive Exec (encrypts : Database → Bytes → Prop) : Machine → (op : Op) → Answer op → Machine → Prop where
  | head {m} (a) : Exec encrypts m .head a (m.ask .head)
  | fetch {m prev} (a) : Exec encrypts m (.fetchIfChanged prev) a (m.ask (.fetchIfChanged prev))
  | put {m bytes ifMatch} (a) :
      Exec encrypts m (.putConditional bytes ifMatch) a (m.ask (.putConditional bytes ifMatch))
  | read {m bytes} : m.file = some bytes → Exec encrypts m .readVaultBytes (.ok bytes) (m.ask .readVaultBytes)
  | readFails {m} (source) :
      Exec encrypts m .readVaultBytes (.error (.vaultIo m.path source)) (m.ask .readVaultBytes)
  | backup {m bytes} : m.file = some bytes →
      Exec encrypts m .snapshotPreMerge (.ok (backupPathFor m.path)) ((m.ask .snapshotPreMerge).backedUp bytes)
  | backupUnconfirmed {m bytes} (e) : m.file = some bytes →
      Exec encrypts m .snapshotPreMerge (.error (backupError e)) ((m.ask .snapshotPreMerge).backedUp bytes)
  | backupFails {m} (e) : Exec encrypts m .snapshotPreMerge (.error (backupError e)) (m.ask .snapshotPreMerge)
  | database {m} : Exec encrypts m .database m.database (m.ask .database)
  | reconcile {m remote merged delta} (env : Env) : Falach.reconcile env m.database remote = .ok (merged, delta) →
      Exec encrypts m (.reconcile remote) (.ok delta) ((m.ask (.reconcile remote)).hold merged)
  | reconcileFails {m remote e left} (env : Env) : Falach.reconcile env m.database remote = .error (.merge e left) →
      Exec encrypts m (.reconcile remote) (.error e) ((m.ask (.reconcile remote)).hold left)
  | replace {m newDb} : m.database.root = newDb.root →
      Exec encrypts m (.replaceDatabase newDb) (.ok ()) ((m.ask (.replaceDatabase newDb)).hold newDb)
  | replaceRefused {m newDb} : m.database.root ≠ newDb.root →
      Exec encrypts m (.replaceDatabase newDb)
        (.error (.vault (.databaseIdentityMismatch m.database.root newDb.root))) (m.ask (.replaceDatabase newDb))
  | save {m bytes} : encrypts m.database bytes → Exec encrypts m .save (.ok ()) ((m.ask .save).saved bytes)
  | saveUnconfirmed {m bytes} (e) : encrypts m.database bytes →
      Exec encrypts m .save (.error (.vault e)) ((m.ask .save).saved bytes)
  | saveFails {m} (e) : Exec encrypts m .save (.error (.vault e)) (m.ask .save)

/-- The only request that can panic. -/
def Panics (m : Machine) (op : Op) : Prop :=
  ∃ remote env, op = .reconcile remote ∧ Falach.reconcile env m.database remote = .error .panic

/-- From `m`, when every request and what it does are as `C` says, the program asks only for what `P` allows and
ends with `Q` or `E`. -/
abbrev Behaves {α : Type} (encrypts : Database → Bytes → Prop)
    (C : (m : Machine) → (op : Op) → Answer op → Machine → Prop)
    (P : Machine → Op → Prop) (Q : Machine → α → Prop) (E : Machine → SyncError → Prop) (m : Machine)
    (p : SyncRun α) : Prop :=
  p.Upholds P (fun m op a m' => Exec encrypts m op a m' ∧ C m op a m') Q E m

/-! ## One request -/

section Requests

open SyncRun

variable {α : Type} {encrypts : Database → Bytes → Prop} {C : (m : Machine) → (op : Op) → Answer op → Machine → Prop}
  {P : Machine → Op → Prop} {Q : Machine → α → Prop} {E : Machine → SyncError → Prop} {m : Machine}

theorem head_behaves {f : Option ObjectVersion → SyncRun α} (hp : P m .head)
    (ok : ∀ v, C m .head (.ok v) (m.ask .head) → Behaves encrypts C P Q E (m.ask .head) (f v))
    (error : ∀ e, E (m.ask .head) e) : Behaves encrypts C P Q E m (head >>= f) := by
  refine ⟨hp, ?_⟩
  rintro a m' ⟨hx, hc⟩
  cases hx with
  | head a =>
    cases a with
    | ok v => exact ok v hc
    | error e => exact error e

theorem readVaultBytes_behaves {f : Bytes → SyncRun α} (hp : P m .readVaultBytes)
    (ok : ∀ bytes, m.file = some bytes → Behaves encrypts C P Q E (m.ask .readVaultBytes) (f bytes))
    (error : ∀ source, E (m.ask .readVaultBytes) (.vaultIo m.path source)) :
    Behaves encrypts C P Q E m (readVaultBytes >>= f) := by
  refine ⟨hp, ?_⟩
  rintro a m' ⟨hx, -⟩
  cases hx with
  | read hb => exact ok _ hb
  | readFails source => exact error source

theorem snapshotPreMerge_behaves {f : String → SyncRun α} (hp : P m .snapshotPreMerge)
    (ok : ∀ bytes, m.file = some bytes →
      Behaves encrypts C P Q E ((m.ask .snapshotPreMerge).backedUp bytes) (f (backupPathFor m.path)))
    (unconfirmed : ∀ bytes e, m.file = some bytes → E ((m.ask .snapshotPreMerge).backedUp bytes) (backupError e))
    (error : ∀ e, E (m.ask .snapshotPreMerge) (backupError e)) :
    Behaves encrypts C P Q E m (snapshotPreMerge >>= f) := by
  refine ⟨hp, ?_⟩
  rintro a m' ⟨hx, -⟩
  cases hx with
  | backup hb => exact ok _ hb
  | backupUnconfirmed e hb => exact unconfirmed _ e hb
  | backupFails e => exact error e

theorem fetchIfChanged_behaves {prev : Option ObjectVersion} {f : Option ObjectSnapshot → SyncRun α}
    (hp : P m (.fetchIfChanged prev))
    (ok : ∀ s, C m (.fetchIfChanged prev) (.ok s) (m.ask (.fetchIfChanged prev)) →
      Behaves encrypts C P Q E (m.ask (.fetchIfChanged prev)) (f s))
    (error : ∀ e, E (m.ask (.fetchIfChanged prev)) e) : Behaves encrypts C P Q E m (fetchIfChanged prev >>= f) := by
  refine ⟨hp, ?_⟩
  rintro a m' ⟨hx, hc⟩
  cases hx with
  | fetch a =>
    cases a with
    | ok s => exact ok s hc
    | error e => exact error e

theorem refuseOtherKdf_behaves {remoteDb : Database} {f : Unit → SyncRun α} (hp : P m .database)
    (ok : m.database.config.kdfConfig = remoteDb.config.kdfConfig → Behaves encrypts C P Q E (m.ask .database) (f ()))
    (error : E (m.ask .database) .masterPasswordMismatch) :
    Behaves encrypts C P Q E m (refuseOtherKdf remoteDb >>= f) := by
  refine ⟨hp, ?_⟩
  rintro a m' ⟨hx, -⟩
  cases hx with
  | database =>
    change Behaves encrypts C P Q E (m.ask .database) ((if _ then _ else _) >>= f)
    split
    · exact error
    · exact ok (not_not.1 ‹_›)

theorem replaceDatabase_behaves {newDb : Database} {f : Unit → SyncRun α} (hp : P m (.replaceDatabase newDb))
    (ok : m.database.root = newDb.root →
      Behaves encrypts C P Q E ((m.ask (.replaceDatabase newDb)).hold newDb) (f ()))
    (error : m.database.root ≠ newDb.root →
      E (m.ask (.replaceDatabase newDb)) (.vault (.databaseIdentityMismatch m.database.root newDb.root))) :
    Behaves encrypts C P Q E m (replaceDatabase newDb >>= f) := by
  refine ⟨hp, ?_⟩
  rintro a m' ⟨hx, -⟩
  cases hx with
  | replace hr => exact ok hr
  | replaceRefused hr => exact error hr

theorem reconcile_behaves {remote : Database} {f : Except MergeError EntryDelta → SyncRun α}
    (hp : P m (.reconcile remote))
    (ok : ∀ env merged delta, Falach.reconcile env m.database remote = .ok (merged, delta) →
      C m (.reconcile remote) (.ok delta) ((m.ask (.reconcile remote)).hold merged) →
      Behaves encrypts C P Q E ((m.ask (.reconcile remote)).hold merged) (f (.ok delta)))
    (error : ∀ env e left, Falach.reconcile env m.database remote = .error (.merge e left) →
      C m (.reconcile remote) (.error e) ((m.ask (.reconcile remote)).hold left) →
      Behaves encrypts C P Q E ((m.ask (.reconcile remote)).hold left) (f (.error e))) :
    Behaves encrypts C P Q E m (request Answer (.reconcile remote) >>= f) := by
  refine ⟨hp, ?_⟩
  rintro a m' ⟨hx, hc⟩
  cases hx with
  | reconcile env h => exact ok env _ _ h hc
  | reconcileFails env h => exact error env _ _ h hc

theorem save_behaves {f : Unit → SyncRun α} (hp : P m .save)
    (ok : ∀ bytes, encrypts m.database bytes → Behaves encrypts C P Q E ((m.ask .save).saved bytes) (f ()))
    (unconfirmed : ∀ bytes e, encrypts m.database bytes → E ((m.ask .save).saved bytes) (.vault e))
    (error : ∀ e, E (m.ask .save) (.vault e)) : Behaves encrypts C P Q E m (save >>= f) := by
  refine ⟨hp, ?_⟩
  rintro a m' ⟨hx, -⟩
  cases hx with
  | save hb => exact ok _ hb
  | saveUnconfirmed e hb => exact unconfirmed _ e hb
  | saveFails e => exact error e

theorem put_behaves {bytes : Bytes} {ifMatch : Option ObjectVersion} {f : Except SyncError ObjectVersion → SyncRun α}
    (hp : P m (.putConditional bytes ifMatch))
    (h : ∀ a, Behaves encrypts C P Q E (m.ask (.putConditional bytes ifMatch)) (f a)) :
    Behaves encrypts C P Q E m (request Answer (.putConditional bytes ifMatch) >>= f) := by
  refine ⟨hp, ?_⟩
  rintro a m' ⟨hx, -⟩
  cases hx with
  | put a => exact h a

end Requests

end Machine

end Falach
