import Mathlib.Data.Set.Insert
import Falach.Lib.Ancestry
import Falach.Keepass.Edit
/-!
# The tree of a database

Parent links and sets of children say the same tree twice. `Linked` is the invariant that they agree and that every
group hangs below the root. In the middle of a removal a group is already unlisted but still there: `LinkedBut`
allows for that.
-/

namespace Keepass

/-- What of an entry the tree is made of. -/
def Version.place (v : Version) : EntryId × GroupId := (v.id, v.parent)

/-- What of a group the tree is made of. -/
def Group.shape (g : Group) : GroupId × Option GroupId × Finset GroupId × Finset EntryId :=
  (g.id, g.parent, g.groups, g.entries)

namespace Database

/-- The parent of a group, if the group exists and has one. -/
def parentOf (db : Database) (i : GroupId) : Option GroupId := (db.group i).bind (·.parent)

/-- The group an entry is in. -/
def homeOf (db : Database) (i : EntryId) : Option GroupId := (db.entry i).map (·.parent)

/-- The links of a database are those of a tree, but the groups of `cut` are not listed by their parents. -/
structure LinkedBut (cut : Set GroupId) (db : Database) : Prop where
  entry_id : ∀ {i e}, db.entry i = some e → e.id = i
  group_id : ∀ {i g}, db.group i = some g → g.id = i
  root_mem : db.root ∈ db.groups
  root_parent : db.parentOf db.root = none
  rooted : ∀ {i}, i ∈ db.groups → Below db.parentOf db.root i
  home : ∀ {i e}, db.entry i = some e → e.parent ∈ db.groups
  child_entries : ∀ {i g}, db.group i = some g → ∀ j, j ∈ g.entries ↔ db.homeOf j = some i
  child_groups : ∀ {i g}, db.group i = some g → ∀ j, j ∈ g.groups ↔ db.parentOf j = some i ∧ j ∉ cut

abbrev Linked (db : Database) : Prop := LinkedBut ∅ db

variable {db db' : Database} {cut : Set GroupId} {i j : Uuid}

theorem parentOf_eq_some {p : GroupId} : db.parentOf i = some p ↔ ∃ g, db.group i = some g ∧ g.parent = some p := by
  simp [parentOf, Option.bind_eq_some_iff]

theorem homeOf_eq_some {p : GroupId} : db.homeOf i = some p ↔ ∃ e, db.entry i = some e ∧ e.parent = p := by
  simp [homeOf]

theorem parentOf_of_group {g : Group} (h : db.group i = some g) : db.parentOf i = g.parent := by simp [parentOf, h]

theorem homeOf_of_entry {e : Entry} (h : db.entry i = some e) : db.homeOf i = some e.parent := by simp [homeOf, h]

theorem mem_groups_of_parentOf {p : GroupId} (h : db.parentOf i = some p) : i ∈ db.groups := by
  obtain ⟨g, hg, -⟩ := parentOf_eq_some.1 h
  exact (mem_groups db).2 ⟨g, hg⟩

namespace LinkedBut

theorem parent_mem (h : LinkedBut cut db) {p : GroupId} (hp : db.parentOf i = some p) : p ∈ db.groups := by
  rcases Below.iff_parent.1 (h.rooted (mem_groups_of_parentOf hp)) with rfl | ⟨q, hq, hb⟩
  · rw [h.root_parent] at hp; cases hp
  · obtain rfl := Option.some.inj (hp.symm.trans hq)
    rcases Below.iff_parent.1 hb with rfl | ⟨_, hq', -⟩
    · exact h.root_mem
    · exact mem_groups_of_parentOf hq'

/-- Only the root has no parent. -/
theorem parent_some (h : LinkedBut cut db) (hi : i ∈ db.groups) (hr : i ≠ db.root) : ∃ p, db.parentOf i = some p := by
  rcases Below.iff_parent.1 (h.rooted hi) with rfl | ⟨p, hp, -⟩
  · exact absurd rfl hr
  · exact ⟨p, hp⟩

end LinkedBut

/-! ## Edits that keep the tree -/

/-- The two databases have the same tree. -/
structure SameTree (db db' : Database) : Prop where
  root : db'.root = db.root
  entry : ∀ i, (db'.entry i).map (fun e => e.place) = (db.entry i).map fun e => e.place
  group : ∀ i, (db'.group i).map Group.shape = (db.group i).map Group.shape

namespace SameTree

theorem refl (db : Database) : SameTree db db := ⟨rfl, fun _ => rfl, fun _ => rfl⟩

theorem trans {a b c : Database} (h : SameTree a b) (h' : SameTree b c) : SameTree a c :=
  ⟨h'.root.trans h.root, fun i => (h'.entry i).trans (h.entry i), fun i => (h'.group i).trans (h.group i)⟩

theorem symm (h : SameTree db db') : SameTree db' db :=
  ⟨h.root.symm, fun i => (h.entry i).symm, fun i => (h.group i).symm⟩

theorem of_eq (root : db'.root = db.root) (entries : db'.entries = db.entries) (groups : db'.groups = db.groups) :
    SameTree db db' :=
  ⟨root, fun i => by simp only [Database.entry, entries], fun i => by simp only [Database.group, groups]⟩

theorem modifyEntry (db : Database) (id : EntryId) {f : Entry → Entry} (hf : ∀ e, (f e).place = e.place) :
    SameTree db (db.modifyEntry id f) := by
  refine ⟨rfl, fun i => ?_, fun _ => rfl⟩
  rw [entry_modifyEntry]
  split
  · subst_vars; rw [Option.map_map]; exact Option.map_congr fun e _ => hf e
  · rfl

theorem modifyGroup (db : Database) (id : GroupId) {f : Group → Group} (hf : ∀ g, (f g).shape = g.shape) :
    SameTree db (db.modifyGroup id f) := by
  refine ⟨rfl, fun _ => rfl, fun i => ?_⟩
  rw [group_modifyGroup]
  split
  · subst_vars; rw [Option.map_map]; exact Option.map_congr fun g _ => hf g
  · rfl

theorem mapGroups (db : Database) {f : Group → Group} (hf : ∀ g, (f g).shape = g.shape) :
    SameTree db { db with groups := db.groups.mapVals f } := by
  refine ⟨rfl, fun _ => rfl, fun i => ?_⟩
  simp only [Database.group, Finmap.lookup_mapVals, Option.map_map]
  exact Option.map_congr fun g _ => hf g

theorem entry_of (h : SameTree db db') {e' : Entry} (he : db'.entry i = some e') :
    ∃ e, db.entry i = some e ∧ e'.id = e.id ∧ e'.parent = e.parent := by
  have hm := h.entry i
  rw [he, Option.map_some] at hm
  obtain ⟨e, he, hp⟩ := Option.map_eq_some_iff.1 hm.symm
  simp only [Version.place, Prod.mk.injEq] at hp
  exact ⟨e, he, hp.1.symm, hp.2.symm⟩

theorem group_of (h : SameTree db db') {g' : Group} (hg : db'.group i = some g') :
    ∃ g, db.group i = some g ∧ g'.id = g.id ∧ g'.parent = g.parent ∧ g'.groups = g.groups ∧ g'.entries = g.entries := by
  have hm := h.group i
  rw [hg, Option.map_some] at hm
  obtain ⟨g, hg, hs⟩ := Option.map_eq_some_iff.1 hm.symm
  simp only [Group.shape, Prod.mk.injEq] at hs
  exact ⟨g, hg, hs.1.symm, hs.2.1.symm, hs.2.2.1.symm, hs.2.2.2.symm⟩

theorem mem_groups_iff (h : SameTree db db') : i ∈ db'.groups ↔ i ∈ db.groups := by
  simp only [mem_groups]
  constructor
  · rintro ⟨g', hg'⟩; obtain ⟨g, hg, -⟩ := h.group_of hg'; exact ⟨g, hg⟩
  · rintro ⟨g, hg⟩; obtain ⟨g', hg', -⟩ := h.symm.group_of hg; exact ⟨g', hg'⟩

theorem mem_entries_iff (h : SameTree db db') : i ∈ db'.entries ↔ i ∈ db.entries := by
  simp only [mem_entries]
  constructor
  · rintro ⟨e', he'⟩; obtain ⟨e, he, -⟩ := h.entry_of he'; exact ⟨e, he⟩
  · rintro ⟨e, he⟩; obtain ⟨e', he', -⟩ := h.symm.entry_of he; exact ⟨e', he'⟩

theorem parentOf_eq (h : SameTree db db') : db'.parentOf = db.parentOf := by
  funext i
  have hm := congrArg (fun o => o.bind (·.2.1)) (h.group i)
  simpa [parentOf, Option.bind_map, Function.comp_def, Group.shape] using hm

theorem homeOf_eq (h : SameTree db db') : db'.homeOf = db.homeOf := by
  funext i
  have hm := congrArg (Option.map Prod.snd) (h.entry i)
  simpa [homeOf, Option.map_map, Function.comp_def, Version.place] using hm

theorem linkedBut (h : SameTree db db') (hl : LinkedBut cut db) : LinkedBut cut db' where
  entry_id he := by obtain ⟨e, he', hid, -⟩ := h.entry_of he; rw [hid]; exact hl.entry_id he'
  group_id hg := by obtain ⟨g, hg', hid, -⟩ := h.group_of hg; rw [hid]; exact hl.group_id hg'
  root_mem := by rw [h.root, h.mem_groups_iff]; exact hl.root_mem
  root_parent := by rw [h.root, h.parentOf_eq]; exact hl.root_parent
  rooted hi := by rw [h.root, h.parentOf_eq]; exact hl.rooted (h.mem_groups_iff.1 hi)
  home he := by
    obtain ⟨e, he', -, hp⟩ := h.entry_of he
    rw [h.mem_groups_iff, hp]; exact hl.home he'
  child_entries hg j := by
    obtain ⟨g, hg', -, -, -, hes⟩ := h.group_of hg
    rw [h.homeOf_eq, hes]; exact hl.child_entries hg' j
  child_groups hg j := by
    obtain ⟨g, hg', -, -, hgs, -⟩ := h.group_of hg
    rw [h.parentOf_eq, hgs]; exact hl.child_groups hg' j

end SameTree

theorem group_modifyGroup_some {p : GroupId} {f : Group → Group} {g : Group}
    (h : (db.modifyGroup p f).group i = some g) :
    ∃ g₀, db.group i = some g₀ ∧ g = if i = p then f g₀ else g₀ := by
  rw [group_modifyGroup] at h
  split at h
  · subst_vars
    obtain ⟨g₀, hg₀, rfl⟩ := Option.map_eq_some_iff.1 h
    exact ⟨g₀, hg₀, by simp⟩
  · exact ⟨g, h, by simp [*]⟩

@[simp] theorem mem_modifyGroup {p : GroupId} {f : Group → Group} : i ∈ (db.modifyGroup p f).groups ↔ i ∈ db.groups :=
  Finmap.mem_modify

theorem parentOf_modifyGroup {p : GroupId} {f : Group → Group} (hf : ∀ g, (f g).parent = g.parent) :
    (db.modifyGroup p f).parentOf = db.parentOf := by
  funext i
  unfold parentOf
  rw [group_modifyGroup]
  split
  · subst_vars
    cases db.group i with
    | none => rfl
    | some g => exact hf g
  · rfl

/-! ## Entries that come, go and move -/

/-- `db'` is `db` with the entries in the groups `home` says, and listed there. -/
structure EntryEdit (db db' : Database) (home : EntryId → Option GroupId) : Prop where
  root : db'.root = db.root
  mem : ∀ i, i ∈ db'.groups ↔ i ∈ db.groups
  entry_id : ∀ i e, db'.entry i = some e → e.id = i
  homeOf : db'.homeOf = home
  home_mem : ∀ i p, home i = some p → p ∈ db.groups
  group : ∀ i g', db'.group i = some g' → ∃ g, db.group i = some g ∧ g'.id = g.id ∧ g'.parent = g.parent ∧
    g'.groups = g.groups ∧ ∀ j, j ∈ g'.entries ↔ home j = some i

theorem EntryEdit.parentOf_eq {home : EntryId → Option GroupId} (h : EntryEdit db db' home) :
    db'.parentOf = db.parentOf := by
  funext i
  cases hg : db'.group i with
  | none =>
    have hn : i ∉ db.groups := fun hi => by
      obtain ⟨g, hg'⟩ := (mem_groups db').1 ((h.mem i).2 hi)
      rw [hg] at hg'; cases hg'
    have hg' : db.group i = none := Finmap.notMem_iff_lookup.1 hn
    simp [parentOf, hg, hg']
  | some g' =>
    obtain ⟨g, hg', -, hp, -⟩ := h.group i g' hg
    rw [parentOf_of_group hg, parentOf_of_group hg', hp]

theorem EntryEdit.linkedBut {home : EntryId → Option GroupId} (h : EntryEdit db db' home) (hl : LinkedBut cut db) :
    LinkedBut cut db' where
  entry_id he := h.entry_id _ _ he
  group_id hg := by obtain ⟨g, hg', hid, -⟩ := h.group _ _ hg; rw [hid]; exact hl.group_id hg'
  root_mem := by rw [h.root, h.mem]; exact hl.root_mem
  root_parent := by rw [h.root, h.parentOf_eq]; exact hl.root_parent
  rooted hi := by rw [h.root, h.parentOf_eq]; exact hl.rooted ((h.mem _).1 hi)
  home he := by
    rw [h.mem]
    exact h.home_mem _ _ (by rw [← h.homeOf]; exact homeOf_of_entry he)
  child_entries hg j := by obtain ⟨_, _, _, _, _, hes⟩ := h.group _ _ hg; rw [h.homeOf]; exact hes j
  child_groups hg j := by
    obtain ⟨g, hg', -, -, hgs, -⟩ := h.group _ _ hg
    rw [h.parentOf_eq, hgs]; exact hl.child_groups hg' j

theorem addEntryWithId_ok {p : GroupId} {id : EntryId} {e : Entry} (h : db.addEntryWithId p id e = .ok db') :
    id ∉ db.entries ∧ db' = { db.modifyGroup p fun g => { g with entries := insert id g.entries } with
      entries := db.entries.insert id e } := by
  unfold addEntryWithId at h
  split at h
  · cases h
  · cases h; exact ⟨‹_›, rfl⟩

theorem homeOf_eq_none : db.homeOf i = none ↔ i ∉ db.entries := by
  rw [homeOf, Option.map_eq_none_iff]; exact Finmap.notMem_iff_lookup.symm

theorem addEntryWithId_edit {p : GroupId} {id : EntryId} {e : Entry} (hl : LinkedBut cut db) (hid : e.id = id)
    (hp : e.parent = p) (hm : p ∈ db.groups) (h : db.addEntryWithId p id e = .ok db') :
    EntryEdit db db' (Function.update db.homeOf id (some p)) := by
  obtain ⟨hnew, rfl⟩ := addEntryWithId_ok h
  have fresh := homeOf_eq_none.2 hnew
  have entry : ∀ (m : Database) j, Database.entry { m with entries := db.entries.insert id e } j =
      if j = id then some e else db.entry j := fun _ j => Finmap.lookup_insert_eq id j e _
  refine ⟨rfl, fun i => mem_modifyGroup, fun i x hx => ?_, funext fun j => ?_, fun i q hq => ?_, fun i g' hg' => ?_⟩
  · rw [entry] at hx
    split at hx
    · cases hx; subst_vars; rfl
    · exact hl.entry_id hx
  · simp only [Database.homeOf, entry, Function.update_apply]
    split
    · simp [hp]
    · rfl
  · rw [Function.update_apply] at hq
    split at hq
    · cases hq; exact hm
    · obtain ⟨x, hx, rfl⟩ := homeOf_eq_some.1 hq
      exact hl.home hx
  · obtain ⟨g, hg, rfl⟩ := @group_modifyGroup_some db _ _ _ _ hg'
    refine ⟨g, hg, ?_⟩
    by_cases hi : i = p
    · subst hi
      simp only [if_true, Function.update_apply, Finset.mem_insert, hl.child_entries hg, true_and]
      intro j
      by_cases hj : j = id
      · simp [hj]
      · simp [hj]
    · simp only [if_neg hi, Function.update_apply, hl.child_entries hg, true_and]
      intro j
      by_cases hj : j = id
      · subst hj; simp [fresh, Ne.symm hi]
      · simp [hj]

/-- The entry taken out of the map and out of its group. -/
def takeEntry (db : Database) (id : EntryId) (p : GroupId) : Database :=
  { db with entries := db.entries.erase id }.modifyGroup p fun g => { g with entries := g.entries.erase id }

theorem takeEntry_edit {p : GroupId} {id : EntryId} (hl : LinkedBut cut db) (hp : db.homeOf id = some p) :
    EntryEdit db (db.takeEntry id p) (Function.update db.homeOf id none) := by
  have entry : ∀ j, (db.takeEntry id p).entry j = if j = id then none else db.entry j :=
    fun j => Finmap.lookup_erase_eq id j _
  refine ⟨rfl, fun i => mem_modifyGroup, fun i x hx => ?_, funext fun j => ?_, fun i q hq => ?_, fun i g' hg' => ?_⟩
  · rw [entry] at hx
    split at hx
    · cases hx
    · exact hl.entry_id hx
  · simp only [Database.homeOf, entry, Function.update_apply]
    split
    · rfl
    · rfl
  · rw [Function.update_apply] at hq
    split at hq
    · cases hq
    · obtain ⟨x, hx, rfl⟩ := homeOf_eq_some.1 hq
      exact hl.home hx
  · obtain ⟨g, hg, rfl⟩ := @group_modifyGroup_some { db with entries := db.entries.erase id } _ _ _ _ hg'
    refine ⟨g, hg, ?_⟩
    have listed := hl.child_entries (g := g) hg
    by_cases hi : i = p
    · subst hi
      simp only [if_true, Function.update_apply, Finset.mem_erase, listed, true_and]
      intro j
      by_cases hj : j = id
      · simp [hj]
      · simp [hj]
    · simp only [if_neg hi, Function.update_apply, listed, true_and]
      intro j
      by_cases hj : j = id
      · subst hj; simp [hp, Ne.symm hi]
      · simp [hj]

theorem moveEntryTo_ok {id : EntryId} {q : GroupId} (h : db.moveEntryTo id q = .ok (some db')) :
    q ∈ db.groups ∧ ∃ e, db.entry id = some e ∧
      db' = ((db.modifyGroup e.parent fun g => { g with entries := g.entries.erase id }).modifyGroup q
        fun g => { g with entries := insert id g.entries }).modifyEntry id fun e => { e with parent := q } := by
  unfold moveEntryTo at h
  split at h
  · simp only [Loop.bind_ok, expect_ok, Loop.pure_ok, Option.some.injEq] at h
    obtain ⟨e, he, -, -, rfl⟩ := h
    exact ⟨‹_›, e, he, rfl⟩
  · cases h

theorem moveEntryTo_edit {id : EntryId} {q : GroupId} (hl : LinkedBut cut db)
    (h : db.moveEntryTo id q = .ok (some db')) :
    EntryEdit db db' (Function.update db.homeOf id (some q)) := by
  obtain ⟨hq, e, he, rfl⟩ := moveEntryTo_ok h
  refine ⟨rfl, fun i => by simp, fun i x hx => ?_, funext fun j => ?_, fun i r hr => ?_, fun i g' hg' => ?_⟩
  · rw [entry_modifyEntry] at hx
    split at hx
    · subst_vars
      obtain ⟨x₀, hx₀, rfl⟩ := Option.map_eq_some_iff.1 hx
      exact hl.entry_id (e := x₀) hx₀
    · exact hl.entry_id (e := x) hx
  · simp only [homeOf, entry_modifyEntry, Function.update_apply]
    split
    · subst_vars; simp [he]
    · rfl
  · rw [Function.update_apply] at hr
    split at hr
    · cases hr; exact hq
    · obtain ⟨x, hx, rfl⟩ := homeOf_eq_some.1 hr
      exact hl.home hx
  · rw [group_modifyEntry] at hg'
    obtain ⟨g₁, hg₁, rfl⟩ := group_modifyGroup_some hg'
    obtain ⟨g, hg, rfl⟩ := group_modifyGroup_some hg₁
    refine ⟨g, hg, by split <;> split <;> rfl, by split <;> split <;> rfl, by split <;> split <;> rfl, fun j => ?_⟩
    have listed := hl.child_entries hg j
    have home := homeOf_of_entry he
    rw [Function.update_apply]
    by_cases hj : j = id
    · subst hj
      rw [home] at listed
      by_cases hiq : i = q
      · simp [hiq]
      · by_cases hip : i = e.parent
        · simp only [if_neg hiq, if_pos hip, if_true, Finset.mem_erase]
          simp [Ne.symm hiq]
        · simp only [if_neg hiq, if_neg hip, if_true, listed]
          simp [Ne.symm hiq, Ne.symm hip]
    · rw [if_neg hj, ← listed]
      by_cases hiq : i = q
      · by_cases hip : i = e.parent
        · simp only [if_pos hiq, if_pos hip, Finset.mem_insert, Finset.mem_erase]; simp [hj]
        · simp only [if_pos hiq, if_neg hip, Finset.mem_insert]; simp [hj]
      · by_cases hip : i = e.parent
        · simp only [if_neg hiq, if_pos hip, Finset.mem_erase]; simp [hj]
        · simp only [if_neg hiq, if_neg hip]

/-- What edits of the pool and of the icons keep. -/
structure SameObjects (db db' : Database) : Prop where
  root : db'.root = db.root
  entries : db'.entries = db.entries
  groups : db'.groups = db.groups
  deletedObjects : db'.deletedObjects = db.deletedObjects

namespace SameObjects

theorem refl (db : Database) : SameObjects db db := ⟨rfl, rfl, rfl, rfl⟩

theorem trans {a b c : Database} (h : SameObjects a b) (h' : SameObjects b c) : SameObjects a c :=
  ⟨h'.root.trans h.root, h'.entries.trans h.entries, h'.groups.trans h.groups, h'.deletedObjects.trans h.deletedObjects⟩

theorem sameTree (h : SameObjects db db') : SameTree db db' := .of_eq h.root h.entries h.groups

theorem entry_eq (h : SameObjects db db') (i : EntryId) : db'.entry i = db.entry i := by
  simp only [Database.entry, h.entries]

theorem group_eq (h : SameObjects db db') (i : GroupId) : db'.group i = db.group i := by
  simp only [Database.group, h.groups]

theorem dropReference (db : Database) (id : EntryId) (att : AttachmentId) : SameObjects db (db.dropReference id att) :=
  ⟨by simp, by simp, by simp, by simp⟩

theorem releaseEntryIcon (db : Database) (id : EntryId) (n : Option Nat) (icon : Option Icon) :
    SameObjects db (db.releaseEntryIcon id n icon) := by
  unfold Database.releaseEntryIcon; split <;> exact ⟨rfl, rfl, rfl, rfl⟩

theorem releaseGroupIcon (db : Database) (id : GroupId) (icon : Option Icon) :
    SameObjects db (db.releaseGroupIcon id icon) := by
  unfold Database.releaseGroupIcon; split <;> exact ⟨rfl, rfl, rfl, rfl⟩

theorem releaseHistoryIcons (db : Database) (id : EntryId) (history : List Version) :
    SameObjects db (db.releaseHistoryIcons id history) := by
  unfold Database.releaseHistoryIcons
  generalize history.zipIdx = l
  induction l generalizing db with
  | nil => exact .refl db
  | cons v l ih => exact (releaseEntryIcon db id _ _).trans (ih _)

end SameObjects

/-- A removal takes the entry out of the tree; besides, only the pool, the icons and top-visible entries change. -/
theorem removeEntry_ok {env : Env} {id : EntryId} (h : removeEntry env db id = .ok db') :
    ∃ e, db.entry id = some e ∧ SameTree (db.takeEntry id e.parent) db' ∧ db'.entries = db.entries.erase id ∧
      db'.deletedObjects = db.deletedObjects := by
  simp only [removeEntry, Loop.bind_ok, expect_ok, Loop.pure_ok] at h
  obtain ⟨e, he, mid, hmid, -, -, rfl⟩ := h
  have released := (SameObjects.releaseEntryIcon db id none e.icon).trans
    (.releaseHistoryIcons _ id (e.history.getD []))
  have dropped := Loop.foldlM_rel SameObjects .refl .trans (fun name _ t t' ht => by
    obtain ⟨_, _, ht⟩ := Loop.bind_ok.1 ht
    obtain ⟨_, _, ht⟩ := Loop.bind_ok.1 ht
    rw [← Loop.pure_ok.1 ht]
    exact .dropReference t id _) hmid
  have same := released.trans dropped
  refine ⟨e, he, ?_, ?_, ?_⟩
  · refine .trans ?_ (.mapGroups _ ?_)
    · exact .of_eq same.root (by simp [takeEntry, Database.modifyGroup, same.entries])
        (by simp [takeEntry, Database.modifyGroup, same.groups])
    · intro g; split <;> rfl
  · exact congrArg (Finmap.erase id) same.entries
  · exact same.deletedObjects

theorem removeEntry_linked {env : Env} {id : EntryId} (hl : LinkedBut cut db) (h : removeEntry env db id = .ok db') :
    LinkedBut cut db' ∧ db'.root = db.root ∧ (∀ i, i ∈ db'.groups ↔ i ∈ db.groups) ∧ db'.parentOf = db.parentOf ∧
      db'.homeOf = Function.update db.homeOf id none := by
  obtain ⟨e, he, hs, -, -⟩ := removeEntry_ok h
  have taken := takeEntry_edit hl (homeOf_of_entry he)
  exact ⟨hs.linkedBut (taken.linkedBut hl), hs.root.trans taken.root,
    fun i => hs.mem_groups_iff.trans (taken.mem i), hs.parentOf_eq.trans taken.parentOf_eq,
      hs.homeOf_eq.trans taken.homeOf⟩

/-! ## Groups that come and move -/

theorem addGroupWithId_ok {p id : GroupId} {g : Group} (h : db.addGroupWithId p id g = .ok db') :
    id ∉ db.groups ∧
      db' = { db with groups := (db.groups.modify p fun g => {
        g with groups := insert id g.groups }).insert id g } := by
  unfold addGroupWithId at h
  split at h
  · cases h
  · cases h; exact ⟨‹_›, rfl⟩

theorem addGroupWithId_linked {p id : GroupId} {g : Group} (hl : Linked db) (hid : g.id = id) (hgp : g.parent = some p)
    (hgs : g.groups = ∅) (hes : g.entries = ∅) (hp : p ∈ db.groups) (h : db.addGroupWithId p id g = .ok db') :
    Linked db' ∧ (∀ i, i ∈ db'.groups ↔ i = id ∨ i ∈ db.groups) ∧
      db'.parentOf = Function.update db.parentOf id (some p) := by
  obtain ⟨hnew, rfl⟩ := addGroupWithId_ok h
  set db' : Database :=
    { db with groups := (db.groups.modify p fun g => { g with groups := insert id g.groups }).insert id g } with hdb
  have group : ∀ j, db'.group j = if j = id then some g else (db.modifyGroup p fun g =>
      { g with groups := insert id g.groups }).group j := fun j => Finmap.lookup_insert_eq id j g _
  have mem : ∀ i, i ∈ db'.groups ↔ i = id ∨ i ∈ db.groups := by
    intro i; rw [hdb, Finmap.mem_insert, Finmap.mem_modify]
  have parentOf : db'.parentOf = Function.update db.parentOf id (some p) := by
    funext j
    rw [Function.update_apply]
    unfold Database.parentOf
    rw [group]
    split
    · exact hgp
    · change (db.modifyGroup p _).parentOf j = db.parentOf j
      rw [parentOf_modifyGroup]
      intro g; rfl
  have noParent : db.parentOf id = none := by
    rw [Database.parentOf, show db.group id = none from Finmap.notMem_iff_lookup.1 hnew]; rfl
  have notRoot : db.root ≠ id := fun hr => hnew (hr ▸ hl.root_mem)
  -- the new group is nobody's parent yet, so the old links are still there
  have kept : ∀ z q, db.parentOf z = some q → db'.parentOf z = some q := by
    intro z q hz
    have hzid : z ≠ id := by rintro rfl; rw [noParent] at hz; cases hz
    rw [parentOf, Function.update_of_ne hzid]; exact hz
  refine ⟨⟨fun he => hl.entry_id he, ?_, (mem _).2 (.inr hl.root_mem), ?_, ?_,
    fun he => (mem _).2 (.inr (hl.home he)), ?_, ?_⟩, mem, parentOf⟩
  · intro i x hx
    rw [group] at hx
    split at hx
    · cases hx; subst_vars; rfl
    · obtain ⟨x₀, hx₀, rfl⟩ := group_modifyGroup_some hx
      split <;> exact hl.group_id (g := x₀) hx₀
  · rw [parentOf, Function.update_of_ne notRoot]; exact hl.root_parent
  · intro i hi
    rcases (mem i).1 hi with rfl | hi
    · exact .child (by rw [parentOf, Function.update_self]) ((hl.rooted hp).mono kept)
    · exact (hl.rooted hi).mono kept
  · intro i x hx j
    rw [group] at hx
    split at hx
    · cases hx
      subst_vars
      rw [hes]
      refine iff_of_false (Finset.notMem_empty j) fun hj => hnew ?_
      obtain ⟨e, he, hep⟩ := homeOf_eq_some.1 hj
      exact hep ▸ hl.home (e := e) he
    · obtain ⟨x₀, hx₀, rfl⟩ := group_modifyGroup_some hx
      have listed := hl.child_entries hx₀ j
      split <;> exact listed
  · intro i x hx j
    rw [group] at hx
    rw [parentOf, Function.update_apply]
    split at hx
    · cases hx
      subst_vars
      rw [hgs]
      refine iff_of_false (Finset.notMem_empty j) fun hj => ?_
      have hj := hj.1
      split at hj
      · cases hj; exact hnew hp
      · exact hnew (hl.parent_mem hj)
    · obtain ⟨x₀, hx₀, rfl⟩ := group_modifyGroup_some hx
      have listed := hl.child_groups hx₀ j
      by_cases hj : j = id
      · subst hj
        rw [noParent] at listed
        by_cases hip : i = p
        · simp [hip]
        · rw [if_neg hip, if_pos rfl, listed]; simp [Ne.symm hip]
      · rw [if_neg hj, ← listed]
        by_cases hip : i = p
        · rw [if_pos hip]; simp [hj]
        · rw [if_neg hip]

end Database

end Keepass
