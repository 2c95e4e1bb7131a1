import Falach.Vault.Effects
/-!
# The tree of an unlocked vault

Whatever is called on a vault, its groups and entries stay one tree, and an entry leaves the vault by a purge only,
which puts its UUID among the deleted objects.
-/

namespace Falach

open Keepass Database

variable {db db' : Database}

/-- A call, with the database before and after it and what it returned. -/
structure Called where
  before : Database
  call : VaultCall
  result : Except VaultError Unit
  after : Database

/-- The calls on the vault `db`, in their order, and the database after the last. -/
inductive Session (db : Database) : List Called → Database → Prop where
  | start : Session db [] db
  | call {calls : List Called} {t t' : Database} {call : VaultCall} {r : Except VaultError Unit} :
      Session db calls t → call.Sound t → call.run t = .ok (r, t') → Session db (calls ++ [⟨t, call, r, t'⟩]) t'

/-- The records of a database are one tree: what a group lists is what names it as its parent. -/
structure TreeFormed (db : Database) : Prop where
  entry_id : ∀ i e, db.entry i = some e → e.id = i
  group_id : ∀ i g, db.group i = some g → g.id = i
  root : db.root ∈ db.groups ∧ db.parentOf db.root = none ∧ ∀ p g, db.group p = some g → db.root ∉ g.groups
  parent : ∀ i ∈ db.groups, i ≠ db.root → ∃ p ∈ db.groups, db.parentOf i = some p ∧
    ∀ q g, db.group q = some g → (i ∈ g.groups ↔ q = p)
  acyclic : ∀ i p, db.parentOf i = some p → ¬ Below db.parentOf i p
  rooted : ∀ i ∈ db.groups, Below db.parentOf db.root i
  home : ∀ i e, db.entry i = some e → e.parent ∈ db.groups ∧
    ∀ q g, db.group q = some g → (i ∈ g.entries ↔ q = e.parent)
  listed : ∀ p g, db.group p = some g → g.entries ⊆ db.entries.keys ∧ g.groups ⊆ db.groups.keys

theorem treeFormed_iff : TreeFormed db ↔ Linked db := by
  constructor
  · intro h
    refine ⟨fun he => h.entry_id _ _ he, fun hg => h.group_id _ _ hg, h.root.1, h.root.2.1, fun hi => h.rooted _ hi,
      fun he => (h.home _ _ he).1, fun {i g} hg j => ?_, fun {i g} hg j => ?_⟩
    · constructor
      · intro hj
        obtain ⟨e, he⟩ := (mem_entries db).1 (Finmap.mem_keys.1 ((h.listed i g hg).1 hj))
        rw [homeOf_of_entry he, ((h.home j e he).2 i g hg).1 hj]
      · intro hj
        obtain ⟨e, he, rfl⟩ := homeOf_eq_some.1 hj
        exact ((h.home j e he).2 _ g hg).2 rfl
    · constructor
      · intro hj
        have hne : j ≠ db.root := by rintro rfl; exact h.root.2.2 i g hg hj
        obtain ⟨p, -, hp, only⟩ := h.parent j (Finmap.mem_keys.1 ((h.listed i g hg).2 hj)) hne
        exact ⟨by rw [hp, (only i g hg).1 hj], Set.notMem_empty j⟩
      · rintro ⟨hj, -⟩
        have hne : j ≠ db.root := by rintro rfl; rw [h.root.2.1] at hj; cases hj
        obtain ⟨p, -, hp, only⟩ := h.parent j (mem_groups_of_parentOf hj) hne
        exact (only i g hg).2 (Option.some.inj (hj.symm.trans hp))
  · intro h
    have groups : ∀ {p g}, db.group p = some g → ∀ j, j ∈ g.groups ↔ db.parentOf j = some p := fun hg j =>
      (h.child_groups hg j).trans (and_iff_left (Set.notMem_empty j))
    refine ⟨fun i e he => h.entry_id he, fun i g hg => h.group_id hg, ⟨h.root_mem, h.root_parent, fun p g hg hr => ?_⟩,
      fun i hi hr => ?_, fun i p hp => ?_, fun i hi => h.rooted hi, fun i e he => ⟨h.home he, fun q g hg => ?_⟩,
      fun p g hg => ⟨fun j hj => ?_, fun j hj => ?_⟩⟩
    · rw [groups hg, h.root_parent] at hr
      cases hr
    · obtain ⟨p, hp⟩ := h.parent_some hi hr
      refine ⟨p, h.parent_mem hp, hp, fun q g hg => ?_⟩
      rw [groups hg, hp, Option.some.injEq]
      exact eq_comm
    · exact Below.acyclic h.root_parent (h.rooted (mem_groups_of_parentOf hp)) p hp
    · rw [h.child_entries hg, homeOf_of_entry he, Option.some.injEq]
      exact eq_comm
    · obtain ⟨e, he, -⟩ := homeOf_eq_some.1 ((h.child_entries hg j).1 hj)
      exact Finmap.mem_keys.2 ((mem_entries db).2 ⟨e, he⟩)
    · exact Finmap.mem_keys.2 (mem_groups_of_parentOf ((groups hg j).1 hj))

namespace Session

variable {calls : List Called}

theorem linked (hl : Linked db) (h : Session db calls db') : Linked db' := by
  induction h with
  | start => exact hl
  | call _ hsound hrun ih => exact (run_effect ih hsound hrun).1.linked

end Session

/-- Over any calls the vault stays one tree, a refused call changes nothing, and an entry that was there before some
call and is gone in the end was purged by one of them and is a deleted object. -/
theorem session_treeFormed {calls : List Called} (hformed : TreeFormed db) (h : Session db calls db') :
    TreeFormed db' ∧ (∀ c ∈ calls, ∀ e, c.result = .error e → c.after = c.before) ∧
      ∀ c ∈ calls, ∀ id ∈ c.before.entries, id ∉ db'.entries →
        id ∈ db'.deletedObjects ∧ ∃ c' ∈ calls, c'.call.Removes c'.before id := by
  have hl := treeFormed_iff.1 hformed
  refine ⟨treeFormed_iff.2 (h.linked hl), ?_, ?_⟩
  · induction h with
    | start => intro c hc; cases hc
    | call hs hsound hrun ih =>
      intro c hc e he
      rcases List.mem_append.1 hc with hc | hc
      · exact ih c hc e he
      · obtain rfl := List.mem_singleton.1 hc
        exact (run_effect (hs.linked hl) hsound hrun).2 e he
  · induction h with
    | start => intro c hc; cases hc
    | @call calls t t' call r hs hsound hrun ih =>
      intro c hc id hid hgone
      have effect := (run_effect (hs.linked hl) hsound hrun).1
      by_cases hmem : id ∈ t.entries
      · -- it went in the last call
        obtain ⟨e, he⟩ := (mem_entries t).1 hmem
        have alters := effect.entry id
        rw [he, show t'.entry id = none from Finmap.notMem_iff_lookup.1 hgone] at alters
        cases alters with
        | removed hremoves =>
          exact ⟨effect.removed id hmem hgone, _, List.mem_append_right calls (List.mem_singleton_self _), hremoves⟩
      · rcases List.mem_append.1 hc with hc | hc
        · obtain ⟨hdeleted, c', hc', hremoves⟩ := ih c hc id hid hmem
          exact ⟨effect.tombstones id hdeleted, c', List.mem_append_left _ hc', hremoves⟩
        · obtain rfl := List.mem_singleton.1 hc
          exact absurd hid hmem

/-! A vault in which an entry is put into a new group, and then purged. -/

def afterCall (db : Database) (call : VaultCall) : Database :=
  match call.run db with
  | .ok (_, db') => db'
  | .error _ => db

def withGroup : Database := afterCall newVault (.createGroup 1 "work" 2 fun _ => 10)
def withEntry : Database := afterCall withGroup (.addEntry 2 { title := "bank" } 5 fun _ => 20)
def withoutEntry : Database := afterCall withEntry (.purgeEntry (Env.inOrder 0) 5 30)

def entering : List Called :=
  [⟨newVault, .createGroup 1 "work" 2 fun _ => 10, .ok (), withGroup⟩] ++
    [⟨withGroup, .addEntry 2 { title := "bank" } 5 fun _ => 20, .ok (), withEntry⟩]

theorem entering_session : Session newVault entering withEntry := by
  have grouped : (VaultCall.createGroup 1 "work" 2 fun _ => 10).run newVault = .ok (.ok (), withGroup) := by
    decide +kernel
  have added : (VaultCall.addEntry 2 { title := "bank" } 5 fun _ => 20).run withGroup = .ok (.ok (), withEntry) := by
    decide +kernel
  refine .call (.call .start ?_ grouped) ?_ added
  · change (2 : GroupId) ∉ newVault.groups
    decide +kernel
  · change (5 : EntryId) ∉ withGroup.entries
    decide +kernel

theorem session_treeFormed_purged : TreeFormed withoutEntry ∧ (5 ∈ withEntry.entries → 5 ∉ withoutEntry.entries →
    5 ∈ withoutEntry.deletedObjects) := by
  have formed : TreeFormed newVault := treeFormed_iff.2 (linked_withData _ _ _)
  have purged : (VaultCall.purgeEntry (Env.inOrder 0) 5 30).run withEntry = .ok (.ok (), withoutEntry) := by
    decide +kernel
  have sound : (VaultCall.purgeEntry (Env.inOrder 0) 5 30).Sound withEntry := trivial
  obtain ⟨formed', -, gone⟩ := session_treeFormed formed (.call entering_session sound purged)
  exact ⟨formed', fun hin hout => (gone _ (List.mem_append_right _ (List.mem_singleton_self _)) 5 hin hout).1⟩

end Falach
