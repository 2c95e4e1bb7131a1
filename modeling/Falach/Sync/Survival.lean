import Falach.Keepass.Outcome
import Falach.Sync.Passes
/-!
# What survives a reconciliation

The passes after the merge leave the tree and the tombstones alone, so which entries are live and which tombstones are
there is what the merge made of them.
-/

namespace Falach

open Keepass Database

variable {env : Env} {db db' localDb remote merged : Database} {delta : EntryDelta}

/-! ## From the merge to the end of the pass -/

theorem HistoryGrows.sameTree (h : HistoryGrows db db') : SameTree db db' := by
  refine ⟨h.root, fun i => ?_, fun i => by simp only [Database.group, h.groups]⟩
  cases he : db'.entry i with
  | some e' =>
    obtain ⟨e, he', hv, -⟩ := h.entry i e' he
    rw [he', Option.map_some, Option.map_some, hv]
  | none =>
    have : i ∉ db.entries := fun hi => Finmap.notMem_iff_lookup.2 he ((h.mem i).2 hi)
    rw [show db.entry i = none from Finmap.notMem_iff_lookup.1 this]

theorem AttachmentEdit.sameTree (h : AttachmentEdit db db') : SameTree db db' := by
  refine ⟨h.root, fun i => ?_, fun i => by simp only [Database.group, h.groups]⟩
  have := congrArg (Option.map fun e : Entry => e.place) (h.entry i)
  rw [Option.map_map, Option.map_map] at this
  exact this

namespace Stages

variable (s : Stages env localDb remote merged delta)

include s in
theorem deletedObjects : merged.deletedObjects = s.vendored.deletedObjects :=
  s.merged_edit.deletedObjects.trans s.backfilled_grows.deletedObjects

theorem sameTree : SameTree s.vendored merged := s.backfilled_grows.sameTree.trans s.merged_edit.sameTree

end Stages

theorem reconcile_linked (hl : Linked localDb) (hr : Linked remote)
    (h : reconcile env localDb remote = .ok (merged, delta)) : Linked merged := by
  obtain ⟨s⟩ := reconcile_stages h
  exact s.sameTree.linkedBut (merge_outcome hl hr s.merge_eq).linked

/-- An entry is live in the merged database exactly if it lands in a group that stays. -/
theorem live_merged_iff (hl : Linked localDb) (hr : Linked remote)
    (h : reconcile env localDb remote = .ok (merged, delta)) (id : EntryId) :
    Live merged id ↔ EntryStays env localDb remote id := by
  obtain ⟨s⟩ := reconcile_stages h
  have outcome := merge_outcome hl hr s.merge_eq
  rw [live_iff (s.sameTree.linkedBut outcome.linked), s.sameTree.mem_entries_iff, outcome.mem_entries]

theorem inTree_merged_iff (hl : Linked localDb) (hr : Linked remote)
    (h : reconcile env localDb remote = .ok (merged, delta)) (id : GroupId) :
    InTree merged id ↔ GroupStays env localDb remote id := by
  obtain ⟨s⟩ := reconcile_stages h
  have outcome := merge_outcome hl hr s.merge_eq
  rw [inTree_iff (s.sameTree.linkedBut outcome.linked), s.sameTree.mem_groups_iff, outcome.mem]
  rfl

theorem mem_deletedObjects_merged_iff (hl : Linked localDb) (hr : Linked remote)
    (h : reconcile env localDb remote = .ok (merged, delta)) (id : Uuid) :
    id ∈ merged.deletedObjects ↔ id ∈ localDb.deletedObjects ∨ Buried env localDb remote id := by
  obtain ⟨s⟩ := reconcile_stages h
  rw [s.deletedObjects]
  exact (merge_outcome hl hr s.merge_eq).mem_deletedObjects

/-! ## Tombstones -/

/-- Every tombstone of either side for something not live is kept, exactly if each tombstone that only the remote has
is for something the merge deletes by it or for something that stays. -/
theorem tombstones_united_iff (hl : Linked localDb) (hr : Linked remote)
    (h : reconcile env localDb remote = .ok (merged, delta)) :
    (∀ id, id ∈ localDb.deletedObjects ∨ id ∈ remote.deletedObjects → ¬ Live merged id → ¬ InTree merged id →
      id ∈ merged.deletedObjects) ↔
    ∀ id ∈ remote.deletedObjects, id ∉ localDb.deletedObjects →
      Buried env localDb remote id ∨ EntryStays env localDb remote id ∨ GroupStays env localDb remote id := by
  simp only [live_merged_iff hl hr h, inTree_merged_iff hl hr h, mem_deletedObjects_merged_iff hl hr h]
  constructor
  · intro claim id hid hno
    by_contra hcon
    obtain ⟨hb, he, hg⟩ : ¬ Buried env localDb remote id ∧ ¬ EntryStays env localDb remote id ∧
        ¬ GroupStays env localDb remote id := by tauto
    exact (claim id (.inr hid) he hg).elim hno hb
  · intro cond id hid he hg
    by_cases hno : id ∈ localDb.deletedObjects
    · exact .inl hno
    · rcases cond id (hid.resolve_left hno) hno with hb | he' | hg'
      · exact .inr hb
      · exact absurd he' he
      · exact absurd hg' hg

def keptDb : Database := single (titled "kept" 10)

/-- Both sides hold entry 5; the remote had an entry 7 and purged it before it was ever synced here. -/
def purgedElsewhere : Database := { keptDb with deletedObjects := Finmap.singleton 7 (some 20) }

theorem purge_forgotten : reconcile (Env.inOrder 1000) keptDb purgedElsewhere = .ok (keptDb, {}) ∧
    ¬ (∀ id, id ∈ keptDb.deletedObjects ∨ id ∈ purgedElsewhere.deletedObjects → ¬ Live keptDb id → ¬ InTree keptDb id →
      id ∈ keptDb.deletedObjects) := by
  have linked : Linked keptDb := CheckedLinks.linked (by decide +kernel)
  refine ⟨by decide +kernel, fun claim => ?_⟩
  have := claim 7 (.inr (by decide)) (by rw [live_iff linked]; decide) (by rw [inTree_iff linked]; decide)
  revert this; decide

/-- Here the local side still holds the purged entry. -/
def purgedHere : Database :=
  { keptDb with
    entries := keptDb.entries.insert 7 { titled "purged" 10 with id := 7 }
    groups := Finmap.singleton 0 { id := 0, parent := none, entries := {5, 7} } }

theorem tombstones_united_iff_purged :
    (∀ id, id ∈ purgedHere.deletedObjects ∨ id ∈ purgedElsewhere.deletedObjects → ¬ Live purgedElsewhere id →
      ¬ InTree purgedElsewhere id → id ∈ purgedElsewhere.deletedObjects) ↔
    ∀ id ∈ purgedElsewhere.deletedObjects, id ∉ purgedHere.deletedObjects →
      Buried (Env.inOrder 1000) purgedHere purgedElsewhere id ∨
        EntryStays (Env.inOrder 1000) purgedHere purgedElsewhere id ∨
        GroupStays (Env.inOrder 1000) purgedHere purgedElsewhere id := by
  have run : reconcile (Env.inOrder 1000) purgedHere purgedElsewhere = .ok (purgedElsewhere, { removed := [7] }) := by
    decide +kernel
  exact tombstones_united_iff (CheckedLinks.linked (by decide +kernel)) (CheckedLinks.linked (by decide +kernel)) run

/-! ## Live entries -/

/-- The entry was changed after the remote deleted it, if the remote ever did. -/
def Outlasts (remote : Database) (id : EntryId) (d : Entry) : Prop :=
  ∀ tombstone, remote.deletedObjects.lookup id = some tombstone →
    ∃ deletion modified, tombstone = some deletion ∧ d.times.lastModification = some modified ∧ deletion < modified

/-- The entry is live on one side, and the other side has not deleted it since. -/
def Covered (localDb remote : Database) (id : EntryId) : Prop :=
  (id ∈ remote.entries ∧ id ∉ localDb.deletedObjects) ∨ ∃ d, localDb.entry id = some d ∧ Outlasts remote id d

theorem Outlasts.not_deleted {id : EntryId} {d : Entry} (h : Outlasts remote id d) : ¬ Deleted remote id d := by
  rintro ⟨tombstone, ht, hout⟩
  obtain ⟨deletion, modified, rfl, hm, hlt⟩ := h tombstone ht
  simp [outlived, Times.lastUpdate, hm, hlt] at hout

/-- A covered entry lands somewhere, unless it is only in the remote and is kept out or has no group to land in. -/
theorem covered_lands_iff {id : EntryId} (hc : Covered localDb remote id) :
    (∃ p, Lands env localDb remote id p) ↔ ∀ s, localDb.entry id = none → remote.entry id = some s →
      ¬ Barred env localDb remote id s ∧ Joins env localDb remote s.parent := by
  constructor
  · rintro ⟨p, ⟨hd, hs, hb, hj⟩ | ⟨hd, -, -⟩ | ⟨hd, -, -⟩⟩ s hd' hs'
    · rw [hs, Option.some.injEq] at hs'; subst hs'
      exact ⟨hb, hj⟩
    · rw [hd] at hd'; cases hd'
    · rw [hd] at hd'; cases hd'
  · intro cond
    cases hd : localDb.entry id with
    | none =>
      rcases hc with ⟨hm, -⟩ | ⟨d, hd', -⟩
      · obtain ⟨s, hs⟩ := (mem_entries remote).1 hm
        obtain ⟨hb, hj⟩ := cond s hd hs
        exact ⟨s.parent, .added hd hs hb hj⟩
      · rw [hd] at hd'; cases hd'
    | some d =>
      cases hs : remote.entry id with
      | none =>
        rcases hc with ⟨hm, -⟩ | ⟨d', hd', hout⟩
        · exact absurd hm (Finmap.notMem_iff_lookup.2 hs)
        · rw [hd, Option.some.injEq] at hd'; subst hd'
          exact ⟨d.parent, .kept hd hs hout.not_deleted⟩
      | some s =>
        by_cases hj : Joins env localDb remote s.parent
        · exact ⟨_, .both hd hs (iff_of_true rfl hj)⟩
        · exact ⟨_, .both hd hs (iff_of_false Bool.false_ne_true hj)⟩

theorem lands_unique {id : EntryId} {p q : GroupId} (hp : Lands env localDb remote id p)
    (hq : Lands env localDb remote id q) : p = q := by
  cases hp with
  | added hd hs _ _ =>
    cases hq with
    | added _ hs' _ _ => rw [hs, Option.some.injEq] at hs'; rw [hs']
    | kept hd' _ _ => rw [hd] at hd'; cases hd'
    | both hd' _ _ => rw [hd] at hd'; cases hd'
  | kept hd hs _ =>
    cases hq with
    | added hd' _ _ _ => rw [hd] at hd'; cases hd'
    | kept hd' _ _ => rw [hd, Option.some.injEq] at hd'; rw [hd']
    | both _ hs' _ => rw [hs] at hs'; cases hs'
  | both hd hs hp =>
    cases hq with
    | added hd' _ _ _ => rw [hd] at hd'; cases hd'
    | kept _ hs' _ => rw [hs] at hs'; cases hs'
    | both hd' hs' hp' =>
      rw [hd, Option.some.injEq] at hd'
      rw [hs, Option.some.injEq] at hs'
      rw [hd', hs', Bool.eq_iff_iff.2 (hp.trans (by rw [hs']; exact hp'.symm))]

theorem entryStays_iff {id : EntryId} :
    EntryStays env localDb remote id ↔ (∃ p, Lands env localDb remote id p) ∧
      ∀ p, Lands env localDb remote id p → ¬ Sinks env localDb remote p := by
  constructor
  · rintro ⟨p, hp, hn⟩
    refine ⟨⟨p, hp⟩, fun q hq => ?_⟩
    rw [← lands_unique hp hq]; exact hn
  · rintro ⟨⟨p, hp⟩, hn⟩
    exact ⟨p, hp, hn p hp⟩

/-- Every covered entry is live in the merged database, exactly if each that only the remote has finds its group, and
none lands in a group that a deletion takes along. -/
theorem entries_united_iff (hl : Linked localDb) (hr : Linked remote)
    (h : reconcile env localDb remote = .ok (merged, delta)) :
    ((∀ id, Live remote id → id ∉ localDb.deletedObjects → Live merged id) ∧
      ∀ id d, Live localDb id → localDb.entry id = some d → Outlasts remote id d → Live merged id) ↔
    (∀ id s, localDb.entry id = none → remote.entry id = some s → id ∉ localDb.deletedObjects →
      ¬ Barred env localDb remote id s ∧ Joins env localDb remote s.parent) ∧
    ∀ id, Covered localDb remote id → ∀ p, Lands env localDb remote id p → ¬ Sinks env localDb remote p := by
  have claim_iff : ((∀ id, Live remote id → id ∉ localDb.deletedObjects → Live merged id) ∧
      ∀ id d, Live localDb id → localDb.entry id = some d → Outlasts remote id d → Live merged id) ↔
      ∀ id, Covered localDb remote id → EntryStays env localDb remote id := by
    simp only [live_merged_iff hl hr h, live_iff hl, live_iff hr]
    constructor
    · rintro ⟨hremote, hlocal⟩ id (⟨hm, hno⟩ | ⟨d, hd, hout⟩)
      · exact hremote id hm hno
      · exact hlocal id d ((mem_entries localDb).2 ⟨d, hd⟩) hd hout
    · intro hall
      exact ⟨fun id hm hno => hall id (.inl ⟨hm, hno⟩), fun id d _ hd hout => hall id (.inr ⟨d, hd, hout⟩)⟩
  rw [claim_iff]
  constructor
  · intro hall
    refine ⟨fun id s hd hs hno => ?_, fun id hc => (entryStays_iff.1 (hall id hc)).2⟩
    have hc : Covered localDb remote id := .inl ⟨(mem_entries remote).2 ⟨s, hs⟩, hno⟩
    exact (covered_lands_iff hc).1 (entryStays_iff.1 (hall id hc)).1 s hd hs
  · rintro ⟨hfind, hsink⟩ id hc
    refine entryStays_iff.2 ⟨(covered_lands_iff hc).2 fun s hd hs => ?_, hsink id hc⟩
    refine hfind id s hd hs fun hdel => ?_
    -- an entry only the remote has is covered by having no tombstone
    rcases hc with ⟨-, hno⟩ | ⟨d, hd', -⟩
    · exact hno hdel
    · rw [hd] at hd'; cases hd'

/-- An entry in a group in a group, the entry newer than everything else. -/
def nested : Database where
  config := ⟨.aes 0⟩
  root := 0
  entries := Finmap.singleton 8 { titled "new" 30 with id := 8, parent := 2 }
  groups := Finmap.insert 2 { id := 2, parent := some 1, entries := {8}, times := { lastModification := some 10 } }
    (Finmap.insert 1 { id := 1, parent := some 0, groups := {2}, times := { lastModification := some 10 } }
      (Finmap.singleton 0 { id := 0, parent := none, groups := {1} }))

/-- The remote deleted both groups, before the entry was last changed. It never held the entry. -/
def outerDeleted : Database where
  config := ⟨.aes 0⟩
  root := 0
  groups := Finmap.singleton 0 { id := 0, parent := none }
  deletedObjects := Finmap.insert 2 (some 20) (Finmap.singleton 1 (some 20))

/-- The inner group outlived its tombstone, but it goes with the outer one, and the entry with it. -/
def cascaded : Database where
  config := ⟨.aes 0⟩
  root := 0
  groups := Finmap.singleton 0 { id := 0, parent := none }
  deletedObjects := Finmap.singleton 1 (some 20)

theorem cascade_drops_newer : reconcile (Env.inOrder 1000) nested outerDeleted = .ok (cascaded, { removed := [8] }) ∧
    ¬ ((∀ id, Live outerDeleted id → id ∉ nested.deletedObjects → Live cascaded id) ∧
      ∀ id d, Live nested id → nested.entry id = some d → Outlasts outerDeleted id d → Live cascaded id) := by
  have linked : Linked nested := CheckedLinks.linked (by decide +kernel)
  refine ⟨by decide +kernel, fun claim => ?_⟩
  have live := claim.2 8 { titled "new" 30 with id := 8, parent := 2 } ((live_iff linked).2 (by decide)) (by decide)
    fun tombstone h => by
      have : outerDeleted.deletedObjects.lookup 8 = none := by decide
      rw [this] at h; cases h
  rw [live_iff (CheckedLinks.linked (by decide +kernel))] at live
  revert live; decide

theorem entries_united_iff_cascade :
    ((∀ id, Live outerDeleted id → id ∉ nested.deletedObjects → Live cascaded id) ∧
      ∀ id d, Live nested id → nested.entry id = some d → Outlasts outerDeleted id d → Live cascaded id) ↔
    (∀ id s, nested.entry id = none → outerDeleted.entry id = some s → id ∉ nested.deletedObjects →
      ¬ Barred (Env.inOrder 1000) nested outerDeleted id s ∧ Joins (Env.inOrder 1000) nested outerDeleted s.parent) ∧
    ∀ id, Covered nested outerDeleted id → ∀ p, Lands (Env.inOrder 1000) nested outerDeleted id p →
      ¬ Sinks (Env.inOrder 1000) nested outerDeleted p := by
  have run : reconcile (Env.inOrder 1000) nested outerDeleted = .ok (cascaded, { removed := [8] }) := by decide +kernel
  exact entries_united_iff (CheckedLinks.linked (by decide +kernel)) (CheckedLinks.linked (by decide +kernel)) run

end Falach
