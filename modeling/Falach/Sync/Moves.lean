import Mathlib.Order.CompletePartialOrder
import Mathlib.Data.Set.Lattice
import Falach.Core.Crud
import Falach.Sync.Completion
/-!
# Moves on two devices

What a reconciliation makes of entries that were moved on one device or on both. A move stamps `location_changed` but
not `last_modification`, and the merge compares the groups of two versions whose modification times tie.
-/

namespace Falach

open Keepass Database

variable {env : Env} {base localDb remote merged : Database} {delta : EntryDelta}

/-- Every attachment an entry names is in the pool, as in a database that was just read. -/
def Pooled (db : Database) : Prop :=
  ∀ i e, db.entry i = some e → ∀ name att, e.attachments.lookup name = some att → ∃ a,
    db.attachments.lookup att = some a

/-- The merge can tell which of two groups the entry goes to: the remote moved it later and the local side says when it
moved it last, or the local side moved it later and the modification times differ. -/
def Ordered (now : NaiveDateTime) (d s : Entry) : Prop :=
  (∃ dlc slc, d.times.locationChanged = some dlc ∧ s.times.locationChanged = some slc ∧ dlc < slc) ∨
    (timeLe d.times.locationChanged s.times.locationChanged = false ∧
      d.times.lastModification.getD now ≠ s.times.lastModification.getD Times.epoch)

/-- The group of the side that moved the entry later. -/
def laterGroup (d s : Entry) : GroupId :=
  if timeLe d.times.locationChanged s.times.locationChanged then s.parent else d.parent

/-- Where the two sides have the entry in different groups, the merge can tell which; and where its modification times
tie, its content is one. -/
def Mergeable (now : NaiveDateTime) (d s : Entry) : Prop :=
  (d.parent ≠ s.parent → Ordered now d s) ∧
    (d.times.lastModification.getD now = s.times.lastModification.getD Times.epoch →
      unplaced d.toVersion = unplaced s.toVersion)

/-! ## One entry -/

theorem followed_unplaced (present : Bool) (d s : Entry) :
    unplaced (followed present d s).toVersion = unplaced d.toVersion := by
  unfold followed
  split
  · split <;> rfl
  · rfl

theorem followed_parent_of_later {present : Bool} {d s : Entry} {dlc slc : NaiveDateTime}
    (hd : d.times.locationChanged = some dlc) (hs : s.times.locationChanged = some slc) (h : dlc < slc)
    (hp : present = true) :
    (followed present d s).parent = s.parent := by
  unfold followed
  simp only [hd, hs]
  split
  · rfl
  · rename_i hno
    by_contra hne
    exact hno ⟨hne, h, hp⟩

theorem followed_parent_of_ordered {now : NaiveDateTime} {present : Bool} {d s : Entry} (hp : present = true)
    (h : d.parent ≠ s.parent → Ordered now d s) : (followed present d s).parent = laterGroup d s := by
  by_cases hne : d.parent = s.parent
  · have : laterGroup d s = d.parent := by unfold laterGroup; rw [hne]; split <;> rfl
    rw [this]
    unfold followed
    split
    · rw [if_neg]
      exact fun hcon => hcon.1 hne
    · rfl
  · rcases h hne with ⟨dlc, slc, hd, hs, hlt⟩ | ⟨hlater, -⟩
    · rw [followed_parent_of_later hd hs hlt hp, laterGroup, hd, hs, if_pos (by simpa [timeLe] using le_of_lt hlt)]
    · rw [laterGroup, if_neg (by rw [hlater]; decide)]
      unfold followed
      split
      · rename_i slc dlc hs hd
        rw [hd, hs] at hlater
        have : slc < dlc := by simpa [timeLe] using hlater
        rw [if_neg]
        exact fun hcon => lt_asymm this hcon.2.1
      · rfl

theorem diverged_iff_unplaced {d s : Version} :
    haveEntriesDiverged d s ↔ unplaced d ≠ unplaced s ∨ d.parent ≠ s.parent := by
  unfold haveEntriesDiverged
  constructor
  · intro h
    by_contra hcon
    push Not at hcon
    obtain ⟨hu, hp⟩ := hcon
    simp only [unplaced, Version.contentOnly, Version.mk.injEq] at hu
    apply h
    simp only [Version.contentOnly, Version.mk.injEq]
    tauto
  · rintro (h | h) hc
    · exact h (by unfold unplaced; rw [hc])
    · have parent := congrArg Version.parent hc
      exact h parent

/-- A tie that the merge lets through is one of the same content, in one group. -/
theorem tie_iff {d s : Entry} {present : Bool} :
    ¬ haveEntriesDiverged (followed present d s).toVersion s.toVersion ↔
      unplaced d.toVersion = unplaced s.toVersion ∧ (followed present d s).parent = s.parent := by
  rw [diverged_iff_unplaced, followed_unplaced]
  tauto

/-- Without a move the merge can follow, the entry stays. -/
theorem followed_parent_cases (present : Bool) (d s : Entry) :
    (followed present d s).parent = d.parent ∨ ∃ dlc slc, d.times.locationChanged = some dlc ∧
      s.times.locationChanged = some slc ∧ dlc < slc := by
  unfold followed
  split
  · rename_i slc dlc hs hd
    split
    · rename_i hc
      exact .inr ⟨dlc, slc, hd, hs, hc.2.1⟩
    · exact .inl rfl
  · exact .inl rfl

/-! ## Two copies of one database -/

section

variable {moved moved' updated updated' : Set EntryId} {bins bins' : Set GroupId}
  (hl : Kin base moved updated bins localDb) (hr : Kin base moved' updated' bins' remote) (hbins : Disjoint bins bins')
include hl hr hbins

theorem Kin.alike : Alike localDb remote := by
  refine ⟨hr.root.trans hl.root.symm, fun i => (hl.entries i).trans (hr.entries i).symm, fun i d s hd hs => ?_,
    fun i hi hn => ?_⟩
  · by_cases hi : i ∈ base.groups
    · have hd' := hl.group i hi
      have hs' := hr.group i hi
      rw [hd, Option.map_some] at hd'
      rw [hs, Option.map_some, ← hd', Option.some.injEq] at hs'
      exact Group.agrees_of_bare hs'.symm
    · -- a bin of each side: they are different
      have hb := (hl.new i ((mem_groups localDb).2 ⟨d, hd⟩)).resolve_left hi
      have hb' := (hr.new i ((mem_groups remote).2 ⟨s, hs⟩)).resolve_left hi
      exact (Set.disjoint_left.1 hbins hb hb').elim
  · have hb : i ∈ bins := (hl.new i hi).resolve_left fun hb => hn (mem_of_map_group (hr.group i hb) hb)
    rw [hr.deletedObjects]
    exact Finmap.notMem_iff_lookup.1 (hl.bins i hb).2

omit hbins in
theorem Kin.joins {i : GroupId} (hi : i ∈ remote.groups) : Joins env localDb remote i := by
  by_cases hd : i ∈ localDb.groups
  · exact .inl hd
  · have hb : i ∉ base.groups := fun hb => hd (mem_of_map_group (hl.group i hb) hb)
    have hb := (hr.new i hi).resolve_left hb
    obtain ⟨g, hg⟩ := (mem_groups remote).1 hi
    have free : localDb.deletedObjects.lookup i = none := by
      rw [hl.deletedObjects]; exact Finmap.notMem_iff_lookup.1 (hr.bins i hb).2
    exact .inr (.wanted hi hd (by simp only [wantsGroup, hg, expect, free]; rfl))

/-- Where a reconciliation puts an entry. -/
theorem Kin.home (h : reconcile env localDb remote = .ok (merged, delta)) {id : EntryId} {d s : Entry}
    (hd : localDb.entry id = some d) (hs : remote.entry id = some s) :
    merged.homeOf id = some (followed true d s).parent := by
  obtain ⟨stages⟩ := reconcile_stages h
  have outcome := merge_outcome hl.linked hr.linked stages.merge_eq
  have joins : Joins env localDb remote s.parent := hl.joins hr (hr.linked.home hs)
  have settles : Settles env localDb remote id (settled true (env.now .entriesInBoth id) d s) :=
    .both hd hs (by simp [joins])
  have entry := (outcome.entry id _).2 ⟨settles, (hl.alike hr hbins).not_sinks _⟩
  have place := congrArg Prod.snd (settled_place true (env.now .entriesInBoth id) d s)
  rw [stages.sameTree.homeOf_eq, homeOf_of_entry entry]
  exact congrArg some place

/-- No entry is new and no attachment differs, so no slot is let go of. -/
theorem Kin.stocked (hpool : Pooled base) : Stocked env localDb remote := by
  have alike := hl.alike hr hbins
  have pools : localDb.attachments = remote.attachments := hl.attachments.trans hr.attachments.symm
  have both : ∀ {i d s}, localDb.entry i = some d → remote.entry i = some s →
      d.attachments = s.attachments ∧ ∀ c, d.Uses c → ∃ a, localDb.attachments.lookup c = some a := by
    intro i d s hd hs
    obtain ⟨b, hb⟩ := (mem_entries base).1 ((hl.entries i).1 ((mem_entries localDb).2 ⟨d, hd⟩))
    have same := (hl.entry i d b hd hb).1
    refine ⟨same.trans (hr.entry i s b hs hb).1.symm, ?_⟩
    rintro c ⟨n, hc⟩
    obtain ⟨a, ha⟩ := hpool i b hb n c (same ▸ hc)
    exact ⟨a, by rw [hl.attachments]; exact ha⟩
  have nobody : ∀ {i s}, localDb.entry i = none → remote.entry i = some s → False := fun hd hs =>
    Finmap.notMem_iff_lookup.2 hd ((alike.entries _).2 ((mem_entries remote).2 ⟨_, hs⟩))
  have keeps : ∀ x c, ¬ LetsGo env localDb remote x c := by
    rintro x c (hleaves | ⟨s, -, hd, hs, -⟩ | ⟨d, s, -, hadopts, -⟩)
    · exact alike.not_leavesSlot x c hleaves
    · exact nobody hd hs
    · refine hadopts.differs ?_
      unfold bytesOf
      rw [(both hadopts.here hadopts.there).1, pools]
  refine ⟨fun x c hx => absurd hx (alike.not_leavesSlot x c), fun x s c hd hs _ => (nobody hd hs).elim,
    fun x d s c hover hc => ?_, fun x d s c hover hc => ?_⟩
  · obtain ⟨n, hc⟩ := hc
    obtain ⟨same, hslots⟩ := both hover.here hover.there
    obtain ⟨a, ha⟩ := hslots c ⟨n, same ▸ hc⟩
    rw [← pools]
    exact Finmap.mem_of_lookup_eq_some ha
  · obtain ⟨a, ha⟩ := (both hover.here hover.there).2 c hc
    exact ⟨a.data, a, ha, rfl, .inl fun y hy => keeps y c hy.2⟩

end

/-- A reconciliation of two copies of one database returns, with every moved entry in the group of the side that moved
it later, exactly if every entry is mergeable. -/
theorem moves_merge_iff {envl envr : Env} {moved moved' updated updated' : Set EntryId} {bins bins' : Set GroupId}
    (hb : Linked base) (hpool : Pooled base) (hl : Derived envl base moved updated bins localDb)
    (hr : Derived envr base moved' updated' bins' remote) (hbins : Disjoint bins bins') :
    (∃ merged delta, reconcile env localDb remote = .ok (merged, delta) ∧ ∀ id ∈ moved ∪ moved', ∀ d s,
      localDb.entry id = some d → remote.entry id = some s → merged.homeOf id = some (laterGroup d s)) ↔
    ∀ id d s, localDb.entry id = some d → remote.entry id = some s → Mergeable (env.now .entriesInBoth id) d s := by
  have kl := hl.kin hb
  have kr := hr.kin hb
  constructor
  · rintro ⟨merged, delta, h, homes⟩ id d s hd hs
    obtain ⟨stages⟩ := reconcile_stages h
    have outcome := merge_outcome kl.linked kr.linked stages.merge_eq
    have joins : Joins env localDb remote s.parent := kl.joins kr (kr.linked.home hs)
    have tie := outcome.tie id d s true hd hs (by simp [joins])
    refine ⟨fun hne => ?_, fun htie => (tie_iff.1 (tie htie)).1⟩
    -- an entry that neither side moved is in one group on both
    have hmoved : id ∈ moved ∪ moved' := by
      by_contra hno
      obtain ⟨hno, hno'⟩ : id ∉ moved ∧ id ∉ moved' := by simpa using hno
      obtain ⟨b, hbe⟩ := (mem_entries base).1 ((kl.entries id).1 ((mem_entries localDb).2 ⟨d, hd⟩))
      exact hne (((kl.entry id d b hd hbe).2.1 hno).trans ((kr.entry id s b hs hbe).2.1 hno').symm)
    have hhome : (followed true d s).parent = laterGroup d s :=
      Option.some.inj ((kl.home kr hbins h hd hs).symm.trans (homes id hmoved d s hd hs))
    cases hlater : timeLe d.times.locationChanged s.times.locationChanged with
    | true =>
      rw [laterGroup, if_pos hlater] at hhome
      rcases followed_parent_cases true d s with hstay | hmove
      · exact absurd (hstay.symm.trans hhome) hne
      · exact .inl hmove
    | false =>
      refine .inr ⟨hlater, fun htie => hne ?_⟩
      rw [laterGroup, hlater] at hhome
      exact hhome.symm.trans (tie_iff.1 (tie htie)).2
  · intro hmerge
    have tie : ∀ id d s present, localDb.entry id = some d → remote.entry id = some s →
        (present = true ↔ Joins env localDb remote s.parent) →
        d.times.lastModification.getD (env.now .entriesInBoth id) = s.times.lastModification.getD Times.epoch →
        ¬ haveEntriesDiverged (followed present d s).toVersion s.toVersion := by
      intro id d s present hd hs hp htie
      have hp := hp.2 (kl.joins kr (kr.linked.home hs))
      obtain ⟨horder, hcontent⟩ := hmerge id d s hd hs
      refine tie_iff.2 ⟨hcontent htie, ?_⟩
      rw [followed_parent_of_ordered hp horder]
      by_cases hne : d.parent = s.parent
      · unfold laterGroup; rw [hne]; split <;> rfl
      · rcases horder hne with ⟨dlc, slc, hdlc, hslc, hlt⟩ | ⟨-, hdiff⟩
        · rw [laterGroup, hdlc, hslc, if_pos (by simpa [timeLe] using le_of_lt hlt)]
        · exact absurd htie hdiff
    have settleable : Settleable env localDb remote :=
      (kl.alike kr hbins).settleable kl.linked kr.linked fun id hties => by
      obtain ⟨d, s, present, hd, hs, hp, htie, hdiv⟩ := hties
      exact tie id d s present hd hs hp htie hdiv
    obtain ⟨-, merged, delta, h⟩ := (reconcile_decides env kl.linked kr.linked (kl.alike kr hbins).root
      (kl.stocked kr hbins hpool)).resolve_right fun h => h.1 settleable
    refine ⟨merged, delta, h, fun id _ d s hd hs => ?_⟩
    rw [kl.home kr hbins h hd hs, followed_parent_of_ordered rfl (hmerge id d s hd hs).1]

/-- An entry in the root group, and a group next to it. -/
def twoGroups : Database where
  config := ⟨.aes 0⟩
  root := 0
  entries := Finmap.singleton 5
    { id := 5, parent := 0, times := { lastModification := some 10, locationChanged := some 10 } }
  groups := Finmap.insert 1 { id := 1, parent := some 0 }
    (Finmap.singleton 0 { id := 0, parent := none, groups := {1}, entries := {5} })

/-- The entry moved into the group, at 20. -/
def movedOver : Database where
  config := ⟨.aes 0⟩
  root := 0
  entries := Finmap.singleton 5
    { id := 5
      parent := 1
      times := { lastModification := some 10, locationChanged := some 20 }
      history := some [{ id := 5, parent := 0, times := { lastModification := some 10, locationChanged := some 10 } }] }
  groups := Finmap.insert 1 { id := 1, parent := some 0, entries := {5} }
    (Finmap.singleton 0 { id := 0, parent := none, groups := {1} })

theorem movedOver_derived : Derived (Env.inOrder 1000) twoGroups (∅ ∪ {5}) ∅ ∅ movedOver :=
  .move .base (show moveEntry twoGroups 5 1 20 = .ok (.ok movedOver) by decide +kernel)

/-- The side that did not move the entry merges the other side's move, but not the other way round. -/
theorem local_move_unresolvable : Derived (Env.inOrder 1000) twoGroups (∅ ∪ {5}) ∅ ∅ movedOver ∧
    Derived (Env.inOrder 1000) twoGroups ∅ ∅ ∅ twoGroups ∧
    ¬ ∃ merged delta, reconcile (Env.inOrder 1000) movedOver twoGroups = .ok (merged, delta) ∧
      ∀ id ∈ (∅ ∪ {5} ∪ ∅ : Set EntryId), ∀ d s, movedOver.entry id = some d → twoGroups.entry id = some s →
        merged.homeOf id = some (laterGroup d s) := by
  refine ⟨movedOver_derived, .base, ?_⟩
  rintro ⟨merged, delta, h, -⟩
  have fails : reconcile (Env.inOrder 1000) movedOver twoGroups =
      .error (.merge (.entryModificationTimeNotUpdated 5) movedOver) := by decide +kernel
  rw [fails] at h; cases h

theorem twoGroups_pooled : Pooled twoGroups := by
  intro i e he name att hatt
  obtain rfl : i = 5 := (Finmap.mem_singleton _ _ _).1 (Finmap.mem_of_lookup_eq_some he)
  rw [Database.entry, twoGroups, Finmap.lookup_singleton_eq, Option.some.injEq] at he
  subst he
  simp at hatt

theorem moves_merge_iff_remote :
    (∃ merged delta, reconcile (Env.inOrder 1000) twoGroups movedOver = .ok (merged, delta) ∧
      ∀ id ∈ (∅ ∪ (∅ ∪ {5}) : Set EntryId), ∀ d s, twoGroups.entry id = some d → movedOver.entry id = some s →
        merged.homeOf id = some (laterGroup d s)) ↔
    ∀ id d s, twoGroups.entry id = some d → movedOver.entry id = some s → Mergeable 1000 d s := by
  have unmoved : Derived (Env.inOrder 1000) twoGroups ∅ ∅ ∅ twoGroups := .base
  exact moves_merge_iff (CheckedLinks.linked (by decide +kernel)) twoGroups_pooled unmoved movedOver_derived
    (Set.disjoint_empty ∅)

end Falach
