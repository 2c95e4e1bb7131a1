import Falach.Sync.Refusals
import Falach.Sync.Survival
/-!
# What a sync reports

The delta of one `reconcile` lists exactly what it changed. A run reports the delta of its last attempt.
-/

namespace Falach

open Keepass Program

variable {env : Env} {db before after localDb remote merged : Database} {delta : EntryDelta}

/-- The entry is live and was last changed then. -/
def Stamped (db : Database) (id : EntryId) (time : Option NaiveDateTime) : Prop :=
  Live db id ∧ ∃ e, db.entry id = some e ∧ e.times.lastModification = time

/-- The delta lists exactly the entries added, removed and restamped. -/
structure Reports (delta : EntryDelta) (before after : Database) : Prop where
  added : ∀ id, id ∈ delta.added ↔ ¬Live before id ∧ Live after id
  removed : ∀ id, id ∈ delta.removed ↔ Live before id ∧ ¬Live after id
  modified : ∀ id, id ∈ delta.modified ↔ ∃ time time', Stamped before id time ∧ Stamped after id time' ∧ time ≠ time'

theorem live_iff_stamped (hl : db.Linked) {id : EntryId} : Live db id ↔ ∃ time, Stamped db id time := by
  refine ⟨fun h => ?_, fun ⟨_, h, _⟩ => h⟩
  obtain ⟨e, he⟩ := (Database.mem_entries db).1 ((live_iff hl).1 h)
  exact ⟨_, h, e, he, rfl⟩

/-- The walk finds each live entry with its modification time. -/
theorem lookup_entryTimes {site : Site} {times : HashMap Uuid (Option NaiveDateTime)} (hl : db.Linked)
    (h : entryTimes env site db = .ok times) {id : EntryId} {time : Option NaiveDateTime} :
    times.lookup id = some time ↔ Stamped db id time := by
  obtain ⟨es, hes, he⟩ := Loop.bind_ok.1 h
  obtain rfl := Loop.pure_ok.1 he
  have found : ∀ x ∈ es, Live db x.id ∧ db.entry x.id = some x := by
    intro x hx
    have hx := (mem_collectLiveEntries hl hes).1 hx
    exact ⟨(live_iff hl).2 ((Database.mem_entries db).2 ⟨x, hx⟩), hx⟩
  obtain ⟨inside, outside⟩ := Finmap.lookup_foldl_insert (fun e : Entry => e.id) (·.times.lastModification)
    (fun x hx y hy he => by
      obtain rfl : x = y := Option.some.inj ((found x hx).2.symm.trans (he ▸ (found y hy).2))
      rfl) ∅
  constructor
  · intro ht
    by_cases hid : id ∈ es.map (·.id)
    · obtain ⟨x, hx, rfl⟩ := List.mem_map.1 hid
      rw [inside x hx, Option.some.injEq] at ht
      exact ⟨(found x hx).1, x, (found x hx).2, ht⟩
    · rw [outside id hid] at ht; cases ht
  · rintro ⟨hlive, e, he, rfl⟩
    obtain rfl := hl.entry_id he
    exact inside e ((mem_collectLiveEntries hl hes).2 he)

theorem deltaBetween_reports {times times' : HashMap Uuid (Option NaiveDateTime)}
    (hb : ∀ id time, times.lookup id = some time ↔ Stamped before id time)
    (ha : ∀ id time, times'.lookup id = some time ↔ Stamped after id time) (lb : before.Linked) (la : after.Linked) :
    Reports (deltaBetween times times') before after := by
  have mem : ∀ {id}, id ∈ times ↔ Live before id := by
    intro id; rw [live_iff_stamped lb, Finmap.mem_iff]; simp only [hb]
  have mem' : ∀ {id}, id ∈ times' ↔ Live after id := by
    intro id; rw [live_iff_stamped la, Finmap.mem_iff]; simp only [ha]
  refine ⟨fun id => ?_, fun id => ?_, fun id => ?_⟩
  · simp only [deltaBetween, List.mem_filter, Enumeration.mem_list, Finmap.mem_keys, decide_eq_true_eq,
      ← Finmap.notMem_iff_lookup, mem, mem']
    exact and_comm
  · simp only [deltaBetween, List.mem_filter, Enumeration.mem_list, Finmap.mem_keys, decide_eq_true_eq, mem, mem']
  · simp only [deltaBetween, List.mem_filter, Enumeration.mem_list, Finmap.mem_keys, decide_eq_true_eq]
    constructor
    · rintro ⟨h', h, hne⟩
      obtain ⟨time, ht⟩ := Finmap.mem_iff.1 h
      obtain ⟨time', ht'⟩ := Finmap.mem_iff.1 h'
      exact ⟨time, time', (hb _ _).1 ht, (ha _ _).1 ht', fun he => hne (by rw [ht, ht', he])⟩
    · rintro ⟨time, time', ht, ht', hne⟩
      have ht := (hb _ _).2 ht
      have ht' := (ha _ _).2 ht'
      exact ⟨Finmap.mem_iff.2 ⟨_, ht'⟩, Finmap.mem_iff.2 ⟨_, ht⟩, fun he => hne (by simpa [ht, ht'] using he)⟩

/-- One `reconcile` reports what it changed. -/
theorem reconcile_reports (hl : localDb.Linked) (hr : remote.Linked)
    (h : reconcile env localDb remote = .ok (merged, delta)) : Reports delta localDb merged := by
  have hm := reconcile_linked hl hr h
  simp only [reconcile, Loop.bind_ok, Loop.pure_ok, Prod.mk.injEq] at h
  obtain ⟨times, ht, _, -, _, -, _, -, _, -, _, -, times', ht', rfl, rfl⟩ := h
  exact deltaBetween_reports (fun _ _ => lookup_entryTimes hl ht) (fun _ _ => lookup_entryTimes hm ht') hl hm

/-- The two databases have the same live entries with the same modification times. -/
def SameStamps (db db' : Database) : Prop := ∀ id time, Stamped db id time ↔ Stamped db' id time

theorem Reports.of_sameStamps (h : Reports delta before after) (hs : SameStamps before db) (lb : before.Linked)
    (ld : db.Linked) : Reports delta db after := by
  have live : ∀ id, Live before id ↔ Live db id := by
    intro id; rw [live_iff_stamped lb, live_iff_stamped ld]; simp only [hs id]
  refine ⟨fun id => ?_, fun id => ?_, fun id => ?_⟩
  · rw [h.added, live]
  · rw [h.removed, live]
  · rw [h.modified]; simp only [hs id]

namespace Machine

variable {encrypts : Database → Bytes → Prop} {openFromBytes : Bytes → Except SyncError Database}
  {sha256 : Bytes → String} {last : SyncPointers} {maxRetries : Nat} {m m' start : Machine}

/-- An attempt begins with the entries of the start of the call, as they were last changed then. -/
def BeginsAsBefore (start : Machine) (m : Machine) (op : Op) (_ : Answer op) (_ : Machine) : Prop :=
  (∃ remote, op = .reconcile remote) → SameStamps m.database start.database

/-- What has been reported is what changed since the start, and it has been saved. -/
def Reported (start m : Machine) (a : SyncOutcome × SyncPointers) : Prop :=
  ∀ delta attempts, a.1 = .merged delta attempts →
    m.written = some m.database ∧ Reports delta start.database m.database

section

open SyncRun

theorem mergeLoop_reports {backupPath : String} {max left : Nat} (ls : start.database.Linked) (lm : m.database.Linked)
    (ho : ∀ bytes db, openFromBytes bytes = .ok db → db.Linked) :
    Behaves encrypts (BeginsAsBefore start) (fun _ _ => True) (Reported start) (fun _ _ => True) m
      (mergeLoop openFromBytes sha256 backupPath max left) := by
  induction left generalizing m with
  | zero => trivial
  | succ left ih =>
    refine fetchIfChanged_behaves trivial (fun s _ => ?_) fun _ => trivial
    cases s with
    | none => trivial
    | some snapshot =>
      refine Upholds.ofExcept (fun remoteDb hr => ?_) fun _ _ => trivial
      refine refuseOtherKdf_behaves trivial (fun _ => ?_) trivial
      refine reconcile_behaves trivial (fun env merged delta hrec hb => ?_) fun _ _ _ _ _ => trivial
      have same : SameStamps m.database start.database := hb ⟨remoteDb, rfl⟩
      have lr := ho _ _ hr
      have linked : merged.Linked := reconcile_linked lm lr hrec
      refine save_behaves trivial (fun bytes _ => ?_) (fun _ _ _ => trivial) fun _ => trivial
      refine readVaultBytes_behaves trivial (fun read _ => put_behaves trivial fun a => ?_) fun _ => trivial
      cases a with
      | ok n =>
        rintro _ _ he
        cases he
        exact ⟨rfl, (reconcile_reports lm lr hrec).of_sameStamps same lm ls⟩
      | error e =>
        dsimp only
        split
        · trivial
        split
        · trivial
        · exact ih linked

theorem runStateMachine_reports (ls : start.database.Linked) (hm : m.database = start.database)
    (ho : ∀ bytes db, openFromBytes bytes = .ok db → db.Linked) :
    Behaves encrypts (BeginsAsBefore start) (fun _ _ => True) (Reported start) (fun _ _ => True) m
      (runStateMachine openFromBytes sha256 last maxRetries) := by
  refine head_behaves trivial (fun v _ => ?_) fun _ => trivial
  refine readVaultBytes_behaves trivial (fun localBytes _ => ?_) fun _ => trivial
  dsimp only
  split
  · nofun
  · refine put_behaves (f := fun r => ofExcept r >>= fun n : ObjectVersion =>
      (pure (.pushed _, ⟨some n.tag, some (sha256 localBytes)⟩) : SyncRun (SyncOutcome × SyncPointers))) trivial
        fun a => ?_
    cases a with
    | ok n => nofun
    | error e => trivial
  · refine fetchIfChanged_behaves trivial (fun s _ => ?_) fun _ => trivial
    cases s with
    | none => nofun
    | some snapshot =>
      refine Upholds.ofExcept (fun remoteDb _ => ?_) fun _ _ => trivial
      refine refuseOtherKdf_behaves trivial (fun _ => ?_) trivial
      refine snapshotPreMerge_behaves trivial (fun _ _ => ?_) (fun _ _ _ => trivial) fun _ => trivial
      refine replaceDatabase_behaves trivial (fun _ => ?_) fun _ => trivial
      refine save_behaves trivial (fun _ _ => ?_) (fun _ _ _ => trivial) fun _ => trivial
      exact readVaultBytes_behaves trivial (fun _ _ => nofun) fun _ => trivial
  · exact snapshotPreMerge_behaves trivial (fun _ _ => mergeLoop_reports ls (hm ▸ ls) ho) (fun _ _ _ => trivial)
      fun _ => trivial

end

/-- A run that returns `Merged` has saved, and when each of its attempts began with the entries of the start of the
call, its delta lists exactly what changed between that start and the saved state. -/
theorem merged_reports (hl : m.database.Linked) (ho : ∀ bytes db, openFromBytes bytes = .ok db → db.Linked)
    {attempts : Nat} {pointers : SyncPointers}
    (run : Runs (fun m₁ op a m₂ => Exec encrypts m₁ op a m₂ ∧ BeginsAsBefore m m₁ op a m₂) Panics m
      (SyncRun.runStateMachine openFromBytes sha256 last maxRetries) m'
        (.returned (.merged delta attempts, pointers))) :
    m'.written = some m'.database ∧ Reports delta m.database m'.database :=
  (runStateMachine_reports hl rfl ho).returned run delta attempts rfl

/-- The local vault of the examples: entry 5 alone. -/
def alone : Machine := { fresh with database := single (titled "same" 10) }

theorem adds_new : reconcile (Env.inOrder 1000) alone.database (withNew "same") =
    .ok (withNew "same", { added := [6] }) := by decide +kernel

theorem adds_nothing : reconcile (Env.inOrder 1000) (withNew "same") (withNew "same") = .ok (withNew "same", {}) := by
  decide +kernel

theorem withNew_linked : (withNew "same").Linked := Database.CheckedLinks.linked (by decide +kernel)

theorem merged_reports_once : ∃ m', Runs
    (fun m₁ op a m₂ => Exec TwoBytes m₁ op a m₂ ∧ BeginsAsBefore alone m₁ op a m₂) Panics alone
    (SyncRun.runStateMachine (fun _ => .ok (withNew "same")) (fun _ => "hash") ⟨none, none⟩ 3) m'
    (.returned (.merged { added := [6] } 1, ⟨some "merged", some "hash"⟩)) ∧
    m'.written = some m'.database ∧ Reports { added := [6] } alone.database m'.database := by
  have other : ∀ {m : Machine} {op : Op} {a : Answer op} {m' : Machine}, (∀ remote, op ≠ .reconcile remote) →
      BeginsAsBefore alone m op a m' := fun hne ⟨remote, he⟩ => absurd he (hne remote)
  have run : Runs (fun m₁ op a m₂ => Exec TwoBytes m₁ op a m₂ ∧ BeginsAsBefore alone m₁ op a m₂) Panics alone
      (SyncRun.runStateMachine (fun _ => .ok (withNew "same")) (fun _ => "hash") ⟨none, none⟩ 3) _
      (.returned (.merged { added := [6] } 1, ⟨some "merged", some "hash"⟩)) :=
    .ask ⟨.head (.ok (some ⟨"new"⟩)), other fun _ h => by cases h⟩ <|
      .ask ⟨.read (show _ = some [1] from rfl), other fun _ h => by cases h⟩ <|
      .ask ⟨.backup (show _ = some [1] from rfl), other fun _ h => by cases h⟩ <|
      .ask ⟨.fetch (.ok (some ⟨⟨"new"⟩, [2]⟩)), other fun _ h => by cases h⟩ <|
      .ask ⟨.database, other fun _ h => by cases h⟩ <|
      .ask ⟨.reconcile (Env.inOrder 1000) adds_new, fun _ _ _ => .rfl⟩ <|
      .ask ⟨.save (show TwoBytes _ [3, 3] from rfl), other fun _ h => by cases h⟩ <|
      .ask ⟨.read (show _ = some [3, 3] from rfl), other fun _ h => by cases h⟩ <|
      .ask ⟨.put (.ok ⟨"merged"⟩), other fun _ h => by cases h⟩ .done
  have linked : alone.database.Linked := Database.CheckedLinks.linked (by decide +kernel)
  exact ⟨_, run, merged_reports linked (fun _ _ he => by cases he; exact withNew_linked) run⟩

/-- The first attempt adds entry 6 and loses the race for the upload; the second one has nothing left to add, and its
empty delta is what the run returns. -/
theorem merged_forgets : ∃ m', Runs (Exec TwoBytes) Panics alone
    (SyncRun.runStateMachine (fun _ => .ok (withNew "same")) (fun _ => "hash") ⟨none, none⟩ 3) m'
    (.returned (.merged {} 2, ⟨some "merged", some "hash"⟩)) ∧ ¬Live alone.database 6 ∧ Live m'.database 6 := by
  have run : Runs (Exec TwoBytes) Panics alone
      (SyncRun.runStateMachine (fun _ => .ok (withNew "same")) (fun _ => "hash") ⟨none, none⟩ 3) _
      (.returned (.merged {} 2, ⟨some "merged", some "hash"⟩)) :=
    .ask (.head (.ok (some ⟨"new"⟩))) <| .ask (.read (show _ = some [1] from rfl)) <|
      .ask (.backup (show _ = some [1] from rfl)) <|
      .ask (.fetch (.ok (some ⟨⟨"new"⟩, [2]⟩))) <| .ask .database <|
      .ask (.reconcile (Env.inOrder 1000) adds_new) <| .ask (.save (show TwoBytes _ [3, 3] from rfl)) <|
      .ask (.read (show _ = some [3, 3] from rfl)) <| .ask (.put (.error (.s3 .preconditionFailed))) <|
      .ask (.fetch (.ok (some ⟨⟨"newer"⟩, [2]⟩))) <| .ask .database <|
      .ask (.reconcile (Env.inOrder 1000) adds_nothing) <| .ask (.save (show TwoBytes _ [4, 4] from rfl)) <|
      .ask (.read (show _ = some [4, 4] from rfl)) <| .ask (.put (.ok ⟨"merged"⟩)) .done
  have linked : alone.database.Linked := Database.CheckedLinks.linked (by decide +kernel)
  refine ⟨_, run, fun h => ?_, (live_iff withNew_linked).2 (by decide +kernel)⟩
  exact absurd ((live_iff linked).1 h) (by decide +kernel)

end Machine

end Falach
