import Mathlib.Data.Set.Insert
import Falach.Sync.StateMachine
/-!
# Devices around one object

Any number of devices run `run_state_machine` against one shared object. The object is a compare-and-swap
register whose versions are never reused; every call may also fail, and an upload may take effect although the
device is told that it failed. Between runs a device edits its vault and saves it; it may crash at any request.

`folded`, `last`, `fetched`, `read`, `sawEmpty`, `used` and `puts` are recorded for the proofs: no device reads them.
-/

namespace Falach

open Keepass

/-- The object, with the versions whose content was folded into its bytes. -/
structure Stored where
  version : ObjectVersion
  bytes : Bytes
  folded : Set ObjectVersion

/-- An upload that took effect. -/
structure Put where
  device : Nat
  ifMatch : Option ObjectVersion
  /-- The version that was current until then. -/
  replaced : Option ObjectVersion
  minted : ObjectVersion
  /-- The version the device had last fetched and reconciled, or synced. -/
  last : Option ObjectVersion
  /-- The versions folded into the uploaded bytes. -/
  folded : Set ObjectVersion
  /-- Whether the HEAD of this run had found no object. -/
  sawEmpty : Bool

structure Shared where
  object : Option Stored
  used : Set ObjectVersion
  puts : List Put := []

structure Device where
  id : Nat
  openFromBytes : Bytes → Except SyncError Database
  vault : Database
  file : Bytes
  backup : Option Bytes := none
  pointers : SyncPointers := {}
  outcomes : List SyncOutcome := []
  memoryFolded : Set ObjectVersion := ∅
  fileFolded : Set ObjectVersion := ∅
  last : Option ObjectVersion := none
  fetched : Option Stored := none
  read : Option (Bytes × Set ObjectVersion) := none
  sawEmpty : Bool := false

namespace Device

/-- The versions folded into what the run fetched. -/
def fetchedFolded (d : Device) : Set ObjectVersion :=
  match d.fetched with
  | none => ∅
  | some f => insert f.version f.folded

/-- The version the run fetched becomes the last one folded in. -/
def lastFetched (d : Device) : Option ObjectVersion := d.fetched.map (·.version) <|> d.last

/-- The device knows that `n` is what it uploaded. -/
def synced (d : Device) (n : ObjectVersion) : Device :=
  { d with last := some n, memoryFolded := insert n d.memoryFolded, fileFolded := insert n d.fileFolded }

/-- Nothing is under way. -/
def atRest (d : Device) : Device := { d with fetched := none, read := none, sawEmpty := false }

/-- The vault saved: `bytes` is one of its many encryptions. -/
def saved (d : Device) (bytes : Bytes) : Device := { d with file := bytes, fileFolded := d.memoryFolded }

/-- The versions folded into the bytes that the run read last. -/
def readFolded (d : Device) : Set ObjectVersion := (d.read.map (·.2)).getD ∅

end Device

/-- The object after device `d` uploaded `bytes` as version `n`. -/
def Shared.upload (g : Shared) (d : Device) (bytes : Bytes) (ifMatch : Option ObjectVersion) (n : ObjectVersion) :
    Shared where
  object := some ⟨n, bytes, d.readFolded⟩
  used := insert n g.used
  puts := ⟨d.id, ifMatch, g.object.map (·.version), n, d.last, d.readFolded, d.sawEmpty⟩ :: g.puts

/-- What a request of device `d` does. -/
inductive Exec : Shared → Device → (op : Op) → Answer op → Shared → Device → Prop where
  | head {g d} : Exec g d .head (.ok (g.object.map (·.version))) g { d with sawEmpty := g.object.isNone }
  | headFails {g d} (e) : Exec g d .head (.error e) g d
  | fetch {g d prev s} : g.object = some s → prev ≠ some s.version →
      Exec g d (.fetchIfChanged prev) (.ok (some ⟨s.version, s.bytes⟩)) g { d with fetched := some s }
  | notModified {g d prev s} : g.object = some s → prev = some s.version →
      Exec g d (.fetchIfChanged prev) (.ok none) g d
  | fetchFails {g d prev} (e) : Exec g d (.fetchIfChanged prev) (.error e) g d
  | put {g d bytes ifMatch n} : ifMatch = none ∨ ifMatch = g.object.map (·.version) → n ∉ g.used →
      Exec g d (.putConditional bytes ifMatch) (.ok n) (g.upload d bytes ifMatch n) (d.synced n)
  | putUnacknowledged {g d bytes ifMatch n} (e) : ifMatch = none ∨ ifMatch = g.object.map (·.version) → n ∉ g.used →
      Exec g d (.putConditional bytes ifMatch) (.error e) (g.upload d bytes ifMatch n) d
  | putFails {g d bytes ifMatch} (e) : Exec g d (.putConditional bytes ifMatch) (.error e) g d
  | read {g d} : Exec g d .readVaultBytes (.ok d.file) g { d with read := some (d.file, d.fileFolded) }
  | readFails {g d} (e) : Exec g d .readVaultBytes (.error e) g d
  | backup {g d} (path) : Exec g d .snapshotPreMerge (.ok path) g { d with backup := some d.file }
  | backupFails {g d} (e) : Exec g d .snapshotPreMerge (.error e) g d
  | database {g d} : Exec g d .database d.vault g d
  | reconcile {g d remote merged delta} (env : Env) : reconcile env d.vault remote = .ok (merged, delta) →
      Exec g d (.reconcile remote) (.ok delta) g
        { d with vault := merged, memoryFolded := d.memoryFolded ∪ d.fetchedFolded, last := d.lastFetched }
  | reconcileFails {g d remote e left} (env : Env) : Falach.reconcile env d.vault remote = .error (.merge e left) →
      Exec g d (.reconcile remote) (.error e) g { d with vault := left }
  | replace {g d newDb} : d.vault.root = newDb.root →
      Exec g d (.replaceDatabase newDb) (.ok ()) g
        { d with vault := newDb, memoryFolded := d.fetchedFolded, last := d.lastFetched }
  | replaceRefused {g d newDb} : d.vault.root ≠ newDb.root →
      Exec g d (.replaceDatabase newDb) (.error (.vault (.databaseIdentityMismatch d.vault.root newDb.root))) g d
  | save {g d} (bytes) : Exec g d .save (.ok ()) g (d.saved bytes)
  | saveUnconfirmed {g d} (bytes e) : Exec g d .save (.error e) g (d.saved bytes)
  | saveFails {g d} (e) : Exec g d .save (.error e) g d

/-- What a device does between two runs. -/
inductive Idle (d : Device) : Device → Prop where
  | edit (db : Database) : Idle d { d with vault := db }
  | save (bytes : Bytes) : Idle d (d.saved bytes)
  | reopen (db : Database) : Idle d { d with vault := db, memoryFolded := d.fileFolded }

/-- Devices that sync whenever they like. After a run the pointers are written back, or that fails. -/
def devices (sha256 : Bytes → String) :
    System Op Answer SyncError (SyncOutcome × SyncPointers) Shared Device where
  exec := Exec
  begins d d' p := d' = d.atRest ∧ ∃ maxRetries,
    p = SyncRun.runStateMachine d.openFromBytes sha256 d.pointers maxRetries
  returns d a d' :=
    d' = { d.atRest with pointers := a.2, outcomes := a.1 :: d.outcomes } ∨ d' = d.atRest
  fails d _ d' := d' = d.atRest
  idles := Idle
  crashes d d' := ∃ db, d' = { d.atRest with vault := db, memoryFolded := d.fileFolded }

abbrev Devices (ι : Type) := System.State Op Answer SyncError (SyncOutcome × SyncPointers) Shared Device ι

/-! ## The in-memory transport -/

namespace MemoryTransport

/-- The transport holds the object, and has minted every version used so far. -/
structure Backs (t : MemoryTransport) (g : Shared) : Prop where
  state : t.state = g.object.map fun s => (s.version, s.bytes)
  used : ∀ v ∈ g.used, ∃ n < t.counter, v = versionAt n

theorem versionAt_inj {m n : Nat} (h : versionAt m = versionAt n) : m = n := by
  have hs : Nat.toDigits 10 m = Nat.toDigits 10 n := by
    have := (String.append_right_inj _).1 (ObjectVersion.mk.inj h)
    simpa [toString, Nat.toList_repr] using congrArg String.toList this
  rw [← Nat.ofDigitChars_ten_toDigits (n := m), hs, Nat.ofDigitChars_ten_toDigits]

variable {t t' : MemoryTransport} {g : Shared} {d : Device}

theorem Backs.fresh (h : t.Backs g) : versionAt t.counter ∉ g.used := by
  intro hm
  obtain ⟨n, hn, he⟩ := h.used _ hm
  exact absurd (versionAt_inj he) (by omega)

theorem Backs.upload (h : t.Backs g) (bytes : Bytes) (ifMatch : Option ObjectVersion) :
    Backs { t with state := some (versionAt t.counter, bytes), counter := t.counter + 1 }
      (g.upload d bytes ifMatch (versionAt t.counter)) := by
  refine ⟨rfl, fun v hv => ?_⟩
  rcases hv with rfl | hv
  · exact ⟨t.counter, Nat.lt_succ_self _, rfl⟩
  · obtain ⟨n, hn, he⟩ := h.used v hv
    exact ⟨n, Nat.lt_succ_of_lt hn, he⟩

theorem head_exec (h : t.Backs g) : ∃ d', Exec g d .head (t.head.mapError MemoryTransportError.toSyncError) g d' := by
  unfold head
  split
  · exact ⟨d, .headFails _⟩
  · rw [h.state, Option.map_map]; exact ⟨_, .head⟩

theorem fetchIfChanged_exec (h : t.Backs g) (prev : Option ObjectVersion) :
    ∃ d', Exec g d (.fetchIfChanged prev) ((t.fetchIfChanged prev).mapError MemoryTransportError.toSyncError) g d' := by
  unfold fetchIfChanged
  rw [h.state]
  cases ho : g.object with
  | none => exact ⟨d, .fetchFails _⟩
  | some s =>
    dsimp only [Option.map_some]
    split
    · exact ⟨d, .notModified ho ‹_›⟩
    · exact ⟨_, .fetch ho ‹_›⟩

/-- An upload the transport makes is one the object allows, and one it refuses changes nothing. -/
theorem putConditional_exec (h : t.Backs g) (bytes : Bytes) (ifMatch : Option ObjectVersion) :
    match t.putConditional bytes ifMatch with
    | .ok (n, t') => ∃ g' d', Exec g d (.putConditional bytes ifMatch) (.ok n) g' d' ∧ t'.Backs g'
    | .error e => Exec g d (.putConditional bytes ifMatch) (.error e.toSyncError) g d := by
  unfold putConditional
  rw [h.state]
  cases ifMatch with
  | none =>
    have landed : Exec g d (.putConditional bytes none) (.ok (versionAt t.counter)) _ _ := .put (.inl rfl) h.fresh
    cases ho : g.object <;> exact ⟨_, _, landed, h.upload bytes none⟩
  | some prev =>
    cases ho : g.object with
    | none => exact .putFails _
    | some s =>
      dsimp only [Option.map_some]
      split
      · rename_i he
        split at he
        · cases he
        · rename_i hv
          cases he
          exact ⟨_, _, .put (.inr (by simpa [ho, eq_comm] using hv)) h.fresh, h.upload bytes (some prev)⟩
      · exact .putFails _

end MemoryTransport

end Falach
