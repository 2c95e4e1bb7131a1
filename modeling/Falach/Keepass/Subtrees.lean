import Falach.Keepass.Tree
/-!
# Moving and removing groups

A move is refused when it would make a cycle, so the tree stays a tree. A removal takes the group with everything
below it, children before parents.
-/

namespace Keepass.Database

variable {db db' : Database} {cut : Set GroupId} {env : Env}

/-! ## Moving -/

/-- A walk up that ends without meeting `id` started outside the subtree of `id`. -/
theorem not_below_of_meetsUpwards {id : GroupId} {n : Nat} {current : Option GroupId}
    (h : db.meetsUpwards id n current = some false) : ∀ c, current = some c → ¬ Below db.parentOf id c := by
  induction n generalizing current with
  | zero =>
    intro c hc
    subst hc; cases h
  | succ n ih =>
    intro c hc hb
    subst hc
    simp only [meetsUpwards] at h
    split at h
    · cases h
    · rename_i hne
      rcases Below.iff_parent.1 hb with rfl | ⟨p, hp, hbp⟩
      · exact hne rfl
      · exact ih h p hp hbp

theorem moveGroupTo_ok {id q : GroupId} (h : db.moveGroupTo id q = .ok (.ok db')) :
    ∃ p, db.parentOf id = some p ∧ q ∈ db.groups ∧ ¬ Below db.parentOf id q ∧
      db' = ((db.modifyGroup p fun g => { g with groups := g.groups.erase id }).modifyGroup q
        fun g => { g with groups := insert id g.groups }).modifyGroup id fun g => { g with parent := some q } := by
  simp only [moveGroupTo, Loop.bind_ok, expect_ok] at h
  obtain ⟨g, hg, h⟩ := h
  cases hp : g.parent with
  | none => simp [hp] at h
  | some p =>
    simp only [hp] at h
    split at h
    · simp at h
    · rename_i hq
      simp only [Loop.bind_ok, expect_ok] at h
      obtain ⟨b, hb, h⟩ := h
      cases b with
      | true => simp at h
      | false =>
        simp only [Bool.false_eq_true, if_false, Loop.bind_ok, expect_ok, Loop.pure_ok, Except.ok.injEq] at h
        obtain ⟨_, _, rfl⟩ := h
        exact ⟨p, parentOf_eq_some.2 ⟨g, hg, hp⟩, not_not.1 hq, not_below_of_meetsUpwards hb q rfl, rfl⟩

theorem moveGroupTo_linked {id q : GroupId} (hl : Linked db) (h : db.moveGroupTo id q = .ok (.ok db')) :
    Linked db' ∧ (∀ i, i ∈ db'.groups ↔ i ∈ db.groups) ∧ db'.parentOf = Function.update db.parentOf id (some q) := by
  obtain ⟨p, hp, hq, hbelow, rfl⟩ := moveGroupTo_ok h
  set listed := (db.modifyGroup p fun g => { g with groups := g.groups.erase id }).modifyGroup q
    fun g => { g with groups := insert id g.groups } with hlisted
  have listedParent : listed.parentOf = db.parentOf := by
    rw [hlisted, parentOf_modifyGroup, parentOf_modifyGroup]
    · intro g; rfl
    · intro g; rfl
  have hid : id ∈ db.groups := mem_groups_of_parentOf hp
  have hidroot : id ≠ db.root := by rintro rfl; rw [hl.root_parent] at hp; cases hp
  have parentOf : (listed.modifyGroup id fun g => { g with parent := some q }).parentOf =
      Function.update db.parentOf id (some q) := by
    funext i
    rw [Function.update_apply, ← listedParent]
    unfold Database.parentOf
    rw [group_modifyGroup]
    split
    · subst_vars
      have : i ∈ listed.groups := by simp [hlisted, hid]
      obtain ⟨g, hg⟩ := (mem_groups _).1 this
      rw [hg]; rfl
    · rfl
  have mem : ∀ i, i ∈ (listed.modifyGroup id fun g => { g with parent := some q }).groups ↔ i ∈ db.groups := by
    intro i; simp [hlisted]
  -- what a group is listed with, before and after
  have group : ∀ {i g}, (listed.modifyGroup id fun g => { g with parent := some q }).group i = some g →
      ∃ g₀, db.group i = some g₀ ∧ g.id = g₀.id ∧ g.entries = g₀.entries ∧
        ∀ j, j ∈ g.groups ↔ (j = id ∧ i = q) ∨ (j ∈ g₀.groups ∧ ¬ (j = id ∧ i = p)) := by
    intro i g hg
    obtain ⟨g₂, hg₂, rfl⟩ := group_modifyGroup_some hg
    obtain ⟨g₁, hg₁, rfl⟩ := group_modifyGroup_some hg₂
    obtain ⟨g₀, hg₀, rfl⟩ := group_modifyGroup_some hg₁
    refine ⟨g₀, hg₀, ?_, ?_, fun j => ?_⟩
    · split <;> split <;> split <;> rfl
    · split <;> split <;> split <;> rfl
    · have : ∀ (c : Prop) [Decidable c] (g : Group), (if c then { g with parent := some q } else g).groups =
        g.groups := by
        intro c _ g; split <;> rfl
      rw [this]
      by_cases hiq : i = q
      · by_cases hip : i = p
        · simp only [if_pos hiq, if_pos hip, Finset.mem_insert, Finset.mem_erase]; tauto
        · simp only [if_pos hiq, if_neg hip, Finset.mem_insert]; tauto
      · by_cases hip : i = p
        · simp only [if_neg hiq, if_pos hip, Finset.mem_erase]; tauto
        · simp only [if_neg hiq, if_neg hip]; tauto
  refine ⟨⟨fun he => hl.entry_id he, ?_, (mem _).2 hl.root_mem, ?_, ?_, fun he => (mem _).2 (hl.home he), ?_, ?_⟩,
    mem, parentOf⟩
  · intro i g hg
    obtain ⟨g₀, hg₀, hgid, -⟩ := group hg
    rw [hgid]; exact hl.group_id hg₀
  · rw [parentOf]
    exact (Function.update_of_ne (Ne.symm hidroot) _ _).trans hl.root_parent
  · intro i hi
    rw [parentOf]
    exact Below.move (fun z hz => Function.update_of_ne hz _ _) (Function.update_self _ _ _) hidroot
      (hl.rooted hq) hbelow
      (hl.rooted ((mem i).1 hi))
  · intro i g hg j
    obtain ⟨g₀, hg₀, -, hes, -⟩ := group hg
    rw [hes]; exact hl.child_entries hg₀ j
  · intro i g hg j
    obtain ⟨g₀, hg₀, -, -, hgs⟩ := group hg
    rw [hgs j, parentOf, Function.update_apply, hl.child_groups hg₀ j]
    by_cases hj : j = id
    · subst hj
      rw [hp]
      simp only [true_and, if_true, Option.some.injEq, Set.mem_empty_iff_false, not_false_eq_true, and_true]
      constructor
      · rintro (rfl | ⟨rfl, hne⟩)
        · rfl
        · exact absurd rfl hne
      · rintro rfl; exact .inl rfl
    · simp [hj]

/-! ## Removing -/

/-- `db'` is `db` without the groups `roots` and everything below them. -/
structure Felled (roots : Set GroupId) (db db' : Database) : Prop where
  root : db'.root = db.root
  deletedObjects : db'.deletedObjects = db.deletedObjects
  mem : ∀ i, i ∈ db'.groups ↔ i ∈ db.groups ∧ ∀ x ∈ roots, ¬ Below db.parentOf x i
  parentOf : ∀ i ∈ db'.groups, db'.parentOf i = db.parentOf i
  gone : ∀ j p, db.homeOf j = some p → (∃ x ∈ roots, Below db.parentOf x p) → db'.entry j = none
  kept : ∀ j, (∀ p, db.homeOf j = some p → ∀ x ∈ roots, ¬ Below db.parentOf x p) → db'.entry j = db.entry j

/-- Where a tree kept the links of another, a node is below the same nodes in both. -/
theorem below_congr (hl : LinkedBut cut db') (h : ∀ i ∈ db'.groups, db'.parentOf i = db.parentOf i) {x i : GroupId}
    (hi : i ∈ db'.groups) : Below db'.parentOf x i ↔ Below db.parentOf x i := by
  constructor
  · intro hb
    refine hb.mono fun z q hz => ?_
    rw [← h z (mem_groups_of_parentOf hz)]; exact hz
  · intro hb
    induction hb with
    | self => exact .self
    | child hp _ ih =>
      have hp' := (h _ hi).trans hp
      exact .child hp' (ih (hl.parent_mem hp'))

theorem homeOf_congr {t : Database} {j : EntryId} (h : t.entry j = db.entry j) : t.homeOf j = db.homeOf j := by
  unfold homeOf; rw [h]

namespace Felled

variable {roots more : Set GroupId} {t : Database}

theorem refl (db : Database) : Felled ∅ db db :=
  ⟨rfl, rfl, fun _ => ⟨fun hi => ⟨hi, fun _ hx => hx.elim⟩, And.left⟩, fun _ _ => rfl,
    fun _ _ _ ⟨_, hx, _⟩ => hx.elim, fun _ _ => rfl⟩

/-- An entry is gone, or it is what it was. -/
theorem gone_or_kept (h : Felled roots db t) (j : EntryId) :
    t.entry j = none ∨ (t.entry j = db.entry j ∧ ∀ p, db.homeOf j = some p → ∀ x ∈ roots, ¬ Below db.parentOf x p) := by
  by_cases hj : ∃ p, db.homeOf j = some p ∧ ∃ x ∈ roots, Below db.parentOf x p
  · obtain ⟨p, hp, hx⟩ := hj
    exact .inl (h.gone j p hp hx)
  · push Not at hj
    exact .inr ⟨h.kept j hj, hj⟩

/-- To fell some roots and then more is to fell all of them. -/
theorem trans (h : Felled roots db t) (hl : LinkedBut cut t) (h' : Felled more t db') :
    Felled (roots ∪ more) db db' := by
  have below : ∀ {x i}, i ∈ t.groups → (Below t.parentOf x i ↔ Below db.parentOf x i) :=
    fun hi => below_congr hl h.parentOf hi
  refine ⟨h'.root.trans h.root, h'.deletedObjects.trans h.deletedObjects, fun i => ?_, fun i hi => ?_, ?_, ?_⟩
  · rw [h'.mem i]
    constructor
    · rintro ⟨hi, hmore⟩
      refine ⟨((h.mem i).1 hi).1, ?_⟩
      rintro x (hx | hx)
      · exact ((h.mem i).1 hi).2 x hx
      · exact fun hb => hmore x hx ((below hi).2 hb)
    · rintro ⟨hi, hall⟩
      have hit : i ∈ t.groups := (h.mem i).2 ⟨hi, fun x hx => hall x (.inl hx)⟩
      exact ⟨hit, fun x hx hb => hall x (.inr hx) ((below hit).1 hb)⟩
  · have hit := ((h'.mem i).1 hi).1
    exact (h'.parentOf i hi).trans (h.parentOf i hit)
  · rintro j p hp ⟨x, hx, hb⟩
    rcases h.gone_or_kept j with hgone | ⟨hsame, hroots⟩
    · -- it was gone before
      have : t.homeOf j = none := by unfold homeOf; rw [hgone]; rfl
      rw [h'.kept j fun p hp => by rw [this] at hp; cases hp]; exact hgone
    · have hpt : t.homeOf j = some p := (homeOf_congr hsame).trans hp
      obtain ⟨e, he, rfl⟩ := homeOf_eq_some.1 hpt
      rcases hx with hx | hx
      · exact absurd hb (hroots _ hp x hx)
      · exact h'.gone j _ hpt ⟨x, hx, (below (hl.home he)).2 hb⟩
  · intro j hj
    have hsame := h.kept j fun p hp x hx => hj p hp x (.inl hx)
    rw [h'.kept j fun p hp x hx hb => ?_, hsame]
    obtain ⟨e, he, rfl⟩ := homeOf_eq_some.1 hp
    exact hj _ ((homeOf_congr hsame).symm.trans hp) x (.inr hx) ((below (hl.home he)).1 hb)

/-- A root that is gone already need not be felled. -/
theorem skip (h : Felled roots db t) {x : GroupId} (hx : x ∈ db.groups) (hxt : x ∉ t.groups) :
    Felled (roots ∪ {x}) db t := by
  obtain ⟨y, hy, hyx⟩ : ∃ y ∈ roots, Below db.parentOf y x := by
    by_contra hno
    push Not at hno
    exact hxt ((h.mem x).2 ⟨hx, hno⟩)
  -- what is below `x` is below the root that took `x` along
  refine ⟨h.root, h.deletedObjects, fun i => (h.mem i).trans ⟨?_, ?_⟩, h.parentOf, ?_, fun j hj => ?_⟩
  · rintro ⟨hi, hroots⟩
    refine ⟨hi, ?_⟩
    rintro z (hz | rfl)
    · exact hroots z hz
    · exact fun hb => hroots y hy (hyx.trans hb)
  · rintro ⟨hi, hroots⟩
    exact ⟨hi, fun z hz => hroots z (.inl hz)⟩
  · rintro j p hp ⟨z, hz | rfl, hb⟩
    · exact h.gone j p hp ⟨z, hz, hb⟩
    · exact h.gone j p hp ⟨y, hy, hyx.trans hb⟩
  · exact h.kept j fun p hp z hz => hj p hp z (.inl hz)

end Felled

/-- The entries of the group on their way out: those not in `rest` are gone. -/
structure Emptied (cut : Set GroupId) (x : GroupId) (db : Database) (rest : List EntryId) (t : Database) : Prop where
  linked : LinkedBut cut t
  root : t.root = db.root
  deletedObjects : t.deletedObjects = db.deletedObjects
  mem : ∀ i, i ∈ t.groups ↔ i ∈ db.groups
  parentOf : t.parentOf = db.parentOf
  gone : ∀ j, db.homeOf j = some x → j ∉ rest → t.entry j = none
  kept : ∀ j, (db.homeOf j = some x → j ∈ rest) → t.entry j = db.entry j

theorem removeEntry_emptied {x : GroupId} {e : EntryId} {rest : List EntryId} {t t' : Database}
    (ht : Emptied cut x db (e :: rest) t) (hn : e ∉ rest) (he : db.homeOf e = some x)
    (h : removeEntry env t e = .ok t') : Emptied cut x db rest t' := by
  obtain ⟨e₀, he₀, _, hentries, hdel⟩ := removeEntry_ok h
  obtain ⟨hl, hroot, hmem, hparent, -⟩ := removeEntry_linked ht.linked h
  have entry : ∀ j, t'.entry j = if j = e then none else t.entry j := by
    intro j; rw [Database.entry, hentries]; exact Finmap.lookup_erase_eq e j _
  refine ⟨hl, hroot.trans ht.root, hdel.trans ht.deletedObjects, fun i => (hmem i).trans (ht.mem i),
    hparent.trans ht.parentOf, fun j hj hr => ?_, fun j hj => ?_⟩
  · rw [entry]
    split
    · rfl
    · rename_i hje
      exact ht.gone j hj fun hm => (List.mem_cons.1 hm).elim hje hr
  · have hje : j ≠ e := by rintro rfl; exact hn (hj he)
    rw [entry, if_neg hje]
    exact ht.kept j fun hx => List.mem_cons_of_mem e (hj hx)

/-- The group unlisted by its parent: from then on it is only still there. -/
theorem unlist_linked {x p : GroupId} (hl : LinkedBut cut db) (hp : db.parentOf x = some p) :
    LinkedBut (insert x cut) (db.modifyGroup p fun g => { g with groups := g.groups.erase x }) := by
  have parentOf : (db.modifyGroup p fun g => { g with groups := g.groups.erase x }).parentOf = db.parentOf := by
    rw [parentOf_modifyGroup]; intro g; rfl
  refine ⟨fun he => hl.entry_id he, fun hg => ?_, mem_modifyGroup.2 hl.root_mem, by rw [parentOf]; exact hl.root_parent,
    fun hi => by rw [parentOf]; exact hl.rooted (mem_modifyGroup.1 hi), fun he => mem_modifyGroup.2 (hl.home he),
    fun hg j => ?_, fun hg j => ?_⟩
  · obtain ⟨g₀, hg₀, rfl⟩ := group_modifyGroup_some hg
    split <;> exact hl.group_id (g := g₀) hg₀
  · obtain ⟨g₀, hg₀, rfl⟩ := group_modifyGroup_some hg
    have listed := hl.child_entries hg₀ j
    split <;> exact listed
  · rename_i i g
    obtain ⟨g₀, hg₀, rfl⟩ := group_modifyGroup_some hg
    have listed := hl.child_groups hg₀ j
    rw [parentOf, Set.mem_insert_iff]
    by_cases hip : i = p
    · rw [if_pos hip, Finset.mem_erase, listed]; tauto
    · rw [if_neg hip, listed]
      have hjx : db.parentOf j = some i → j ≠ x := by
        rintro hj rfl
        exact hip (Option.some.inj (hj.symm.trans hp))
      tauto

/-- The group taken out of the map, when nothing hangs below it any more. -/
theorem eraseGroup_linked {x : GroupId} (hl : LinkedBut (insert x cut) db) (hroot : x ≠ db.root)
    (hchild : ∀ c, db.parentOf c ≠ some x) (hhome : ∀ j, db.homeOf j ≠ some x) (m : Meta) :
    LinkedBut cut { db with groups := db.groups.erase x, «meta» := m } := by
  set db' : Database := { db with groups := db.groups.erase x, «meta» := m } with hdb
  have group : ∀ i, db'.group i = if i = x then none else db.group i := fun i => Finmap.lookup_erase_eq x i db.groups
  have mem : ∀ {i}, i ∈ db.groups → i ≠ x → i ∈ db'.groups := fun hi hx => Finmap.mem_erase.2 ⟨hx, hi⟩
  have parentOf : ∀ i, db'.parentOf i = if i = x then none else db.parentOf i := by
    intro i
    unfold Database.parentOf
    rw [group]
    split <;> rfl
  have old : ∀ {i g}, db'.group i = some g → i ≠ x ∧ db.group i = some g := by
    intro i g hg
    rw [group] at hg
    split at hg
    · cases hg
    · exact ⟨‹_›, hg⟩
  refine ⟨fun he => hl.entry_id he, fun hg => hl.group_id (old hg).2, mem hl.root_mem (Ne.symm hroot), ?_, ?_, ?_,
    ?_, ?_⟩
  · rw [parentOf]; split
    · rfl
    · exact hl.root_parent
  · intro i hi
    obtain ⟨hix, hi⟩ := Finmap.mem_erase.1 hi
    have hb := hl.rooted hi
    induction hb with
    | self => exact .self
    | @child i p hp hb ih =>
      have hpx : p ≠ x := by rintro rfl; exact hchild i hp
      exact .child (by rw [parentOf, if_neg hix]; exact hp) (ih (mem (hl.parent_mem hp) hpx) hpx (hl.parent_mem hp))
  · intro i e he
    refine mem (hl.home (e := e) he) ?_
    rintro hx
    exact hhome i (hx ▸ homeOf_of_entry he)
  · intro i g hg j
    exact hl.child_entries (old hg).2 j
  · intro i g hg j
    rw [hl.child_groups (old hg).2 j, parentOf, Set.mem_insert_iff]
    by_cases hj : j = x
    · simp [hj]
    · simp [hj]

/-- The entries of the group, removed one by one. -/
theorem removeEntries_emptied {x : GroupId} {l : List EntryId} {u t : Database} (hu : Emptied cut x db l u)
    (hn : l.Nodup) (hmem : ∀ j ∈ l, db.homeOf j = some x)
    (h : l.foldlM (fun db e => if e ∈ db.entries then removeEntry env db e else return db) u = .ok t) :
    Emptied cut x db [] t := by
  refine Loop.foldlM_inv_rest (Emptied cut x db) (fun e rest t t' hsuf ht hstep => ?_) h hu
  have hn' := hn.sublist hsuf.sublist
  have he : db.homeOf e = some x := hmem e (hsuf.subset List.mem_cons_self)
  have her := (List.nodup_cons.1 hn').1
  split at hstep
  · exact removeEntry_emptied ht her he hstep
  · rename_i hgone
    obtain rfl := Loop.pure_ok.1 hstep
    -- the entry is still in the map, so this branch is not taken
    have : t.entry e = db.entry e := ht.kept e fun _ => List.mem_cons_self
    obtain ⟨e₀, he₀, -⟩ := homeOf_eq_some.1 he
    exact absurd ((mem_entries t).2 ⟨e₀, this.trans he₀⟩) hgone

/-- The icon of the group goes first, then its place among the children of its parent. -/
theorem unlisted_emptied {x p : GroupId} {g : Group} {l : List EntryId} (hl : LinkedBut cut db)
    (hg : db.group x = some g) (hp : g.parent = some p) (hmem : ∀ j, db.homeOf j = some x → j ∈ l) :
    Emptied (insert x cut) x db l
      (((db.releaseGroupIcon x g.icon).modifyGroup x fun g => { g with icon := none }).modifyGroup p
        fun g => { g with groups := g.groups.erase x }) := by
  have released := SameObjects.releaseGroupIcon db x g.icon
  set db₀ := (db.releaseGroupIcon x g.icon).modifyGroup x fun g => { g with icon := none } with hdb₀
  have hs : SameTree db db₀ := released.sameTree.trans (.modifyGroup _ x fun _ => rfl)
  have hp₀ : db₀.parentOf x = some p := by rw [hs.parentOf_eq]; exact (parentOf_of_group hg).trans hp
  refine ⟨unlist_linked (hs.linkedBut hl) hp₀, hs.root, released.deletedObjects,
    fun i => mem_modifyGroup.trans hs.mem_groups_iff, ?_, fun j hj hr => absurd (hmem j hj) hr, fun j _ => ?_⟩
  · rw [parentOf_modifyGroup, hs.parentOf_eq]; intro g; rfl
  · exact released.entry_eq j

namespace Emptied

variable {x c : GroupId} {rest : List GroupId} {t u : Database} (h : Emptied (insert x cut) x db [] t)

include h in
/-- The group still lists its children. -/
theorem children (hl : LinkedBut cut db) (hcut : ∀ d ∈ cut, ¬ Below db.parentOf x d) (hx : x ∈ db.groups) {g : Group}
    (hg : t.group x = some g) (c : GroupId) : c ∈ g.groups ↔ db.parentOf c = some x := by
  rw [h.linked.child_groups hg c, h.parentOf]
  refine ⟨fun hc => hc.1, fun hc => ⟨hc, ?_⟩⟩
  rintro (rfl | hd)
  · exact Below.acyclic hl.root_parent (hl.rooted hx) _ hc .self
  · exact hcut c hd (.child hc .self)

include h in
/-- When some of the children are felled, the next one is still there, with what was below it. -/
theorem next_child (hl : LinkedBut cut db) (hcut : ∀ d ∈ cut, ¬ Below db.parentOf x d) (hx : x ∈ db.groups)
    (hu : Felled {c' | db.parentOf c' = some x ∧ c' ∉ c :: rest} t u) (hc : db.parentOf c = some x) :
    c ∈ u.groups ∧ c ≠ u.root ∧ (∀ d ∈ insert x cut, ¬ Below u.parentOf c d) ∧
      ∀ d, Below u.parentOf c d → Below db.parentOf c d := by
  have acyclic : ∀ {c' q}, db.parentOf c' = some x → db.parentOf c' = some q → ¬ Below db.parentOf c' q :=
    fun hc' hq => Below.acyclic hl.root_parent (hl.rooted (mem_groups_of_parentOf hc')) _ hq
  have below : ∀ d, Below u.parentOf c d → Below db.parentOf c d := fun d hb => hb.mono fun z q hz => by
    rw [← h.parentOf, ← hu.parentOf z (mem_groups_of_parentOf hz)]; exact hz
  refine ⟨(hu.mem c).2 ⟨(h.mem c).2 (mem_groups_of_parentOf hc), ?_⟩, ?_, ?_, below⟩
  · rintro c' ⟨hc', hr⟩ hb
    rw [h.parentOf] at hb
    rcases Below.iff_parent.1 hb with rfl | ⟨q, hq, hb⟩
    · exact hr List.mem_cons_self
    · obtain rfl := Option.some.inj (hc.symm.trans hq)
      exact acyclic hc' hc' hb
  · rintro rfl
    rw [hu.root, h.root, hl.root_parent] at hc; cases hc
  · rintro d (rfl | hd) hb
    · exact acyclic hc hc (below _ hb)
    · exact hcut d hd ((Below.child hc .self).trans (below d hb))

end Emptied

/-- One more child. -/
theorem Felled.child {x c : GroupId} {rest : List GroupId} {t u u' : Database} (hn : c ∉ rest)
    (hu : Felled {c' | db.parentOf c' = some x ∧ c' ∉ c :: rest} t u) (hl : LinkedBut cut u)
    (hc : db.parentOf c = some x) (h : Felled {c} u u') : Felled {c' | db.parentOf c' = some x ∧ c' ∉ rest} t u' := by
  have roots : {c' | db.parentOf c' = some x ∧ c' ∉ rest} = {c' | db.parentOf c' = some x ∧ c' ∉ c :: rest} ∪ {c} := by
    ext c'
    simp only [Set.mem_ofPred_eq, Set.mem_union, Set.mem_singleton_iff, List.mem_cons, not_or]
    by_cases hcc : c' = c
    · subst hcc; simp [hc, hn]
    · simp [hcc]
  rw [roots]
  exact hu.trans hl h

/-- Before the first child. -/
theorem Felled.nothing {x : GroupId} {l : List GroupId} (h : ∀ c, db.parentOf c = some x → c ∈ l) (t : Database) :
    Felled {c | db.parentOf c = some x ∧ c ∉ l} t t := by
  have nothing : {c | db.parentOf c = some x ∧ c ∉ l} = ∅ :=
    Set.eq_empty_of_forall_notMem fun c hc => hc.2 (h c hc.1)
  rw [nothing]
  exact .refl t

/-- A removal fells the group, and leaves the rest of the tree linked as it was. -/
theorem removeGroup_felled {n : Nat} {x : GroupId} (hl : LinkedBut cut db) (hcut : ∀ d ∈ cut, ¬ Below db.parentOf x d)
    (hroot : x ≠ db.root) (h : removeGroup env n db x = .ok db') : LinkedBut cut db' ∧ Felled {x} db db' := by
  induction n generalizing db db' cut x with
  | zero => cases h
  | succ n ih =>
    simp only [removeGroup, Loop.bind_ok, expect_ok, Loop.pure_ok] at h
    obtain ⟨g, hg, t₁, h₁, g₁, hg₁, t₂, h₂, rfl⟩ := h
    have hx : x ∈ db.groups := (mem_groups db).2 ⟨g, hg⟩
    obtain ⟨p, hp⟩ := hl.parent_some hx hroot
    have hgp : g.parent = some p := (parentOf_of_group hg).symm.trans hp
    rw [hgp] at h₁
    have listed : ∀ j, j ∈ (env.ids .childEntries).list g.entries ↔ db.homeOf j = some x := fun j => by
      rw [(env.ids .childEntries).mem_list, hl.child_entries hg j]
    -- the entries
    have e₁ : Emptied (insert x cut) x db [] t₁ := removeEntries_emptied
      (unlisted_emptied hl hg hgp fun j hj => (listed j).2 hj) ((env.ids .childEntries).nodup_list _)
      (fun j hj => (listed j).1 hj) h₁
    have children : ∀ c, c ∈ (env.ids .childGroups).list g₁.groups ↔ db.parentOf c = some x := fun c => by
      rw [(env.ids .childGroups).mem_list, e₁.children hl hcut hx hg₁]
    -- the subgroups, of which those not in `rest` are felled
    have felled : LinkedBut (insert x cut) t₂ ∧ Felled {c | db.parentOf c = some x ∧ c ∉ []} t₁ t₂ := by
      refine Loop.foldlM_inv_rest (fun rest t => LinkedBut (insert x cut) t ∧
        Felled {c | db.parentOf c = some x ∧ c ∉ rest} t₁ t) (fun c rest t t' hsuf ht hstep => ?_) h₂
        ⟨e₁.linked, .nothing (fun c hc => (children c).2 hc) t₁⟩
      obtain ⟨htl, ht⟩ := ht
      have hcr : c ∉ rest :=
        (List.nodup_cons.1 (((env.ids .childGroups).nodup_list g₁.groups).sublist hsuf.sublist)).1
      have hc : db.parentOf c = some x := (children c).1 (hsuf.subset List.mem_cons_self)
      obtain ⟨hct, hcroot, hcutc, -⟩ := e₁.next_child hl hcut hx ht hc
      rw [if_pos hct] at hstep
      obtain ⟨htl', ht'⟩ := ih htl hcutc hcroot hstep
      exact ⟨htl', ht.child hcr htl hc ht'⟩
    obtain ⟨hl₂, felled⟩ := felled
    -- the group itself
    have noChild : ∀ c, t₂.parentOf c ≠ some x := by
      intro c hc
      have hct := mem_groups_of_parentOf hc
      rw [felled.parentOf c hct, e₁.parentOf] at hc
      exact ((felled.mem c).1 hct).2 c ⟨hc, List.not_mem_nil⟩ .self
    have emptied : ∀ {j}, db.homeOf j = some x → t₁.entry j = none := fun hj => e₁.gone _ hj List.not_mem_nil
    have untouched : ∀ {j}, db.homeOf j ≠ some x → t₁.entry j = db.entry j := fun hj =>
      e₁.kept _ fun h => absurd h hj
    have gone : ∀ {j}, t₁.entry j = none → t₂.entry j = none := fun {j} hj => by
      have : t₁.homeOf j = none := by unfold homeOf; rw [hj]; rfl
      rw [felled.kept j fun p hp => by rw [this] at hp; cases hp]; exact hj
    have noEntry : ∀ j, t₂.homeOf j ≠ some x := by
      intro j hj
      obtain ⟨e, he, hep⟩ := homeOf_eq_some.1 hj
      by_cases hjx : db.homeOf j = some x
      · rw [gone (emptied hjx)] at he; cases he
      · rcases felled.gone_or_kept j with hnone | ⟨hsame, -⟩
        · rw [hnone] at he; cases he
        · rw [homeOf_congr (hsame.trans (untouched hjx))] at hj; exact hjx hj
    refine ⟨eraseGroup_linked hl₂ ?_ noChild noEntry _, ?_, ?_, fun i => ?_, fun i hi => ?_, ?_, fun j hj => ?_⟩
    · rw [felled.root, e₁.root]; exact hroot
    · exact felled.root.trans e₁.root
    · exact felled.deletedObjects.trans e₁.deletedObjects
    · rw [Finmap.mem_erase, felled.mem i, e₁.mem]
      simp only [Set.mem_singleton_iff, forall_eq, Below.iff_child (x := x), e₁.parentOf, Set.mem_ofPred_eq,
        List.not_mem_nil, not_false_eq_true, and_true, not_or, not_exists, not_and]
      tauto
    · obtain ⟨hix, hi⟩ := Finmap.mem_erase.1 hi
      rw [← e₁.parentOf, ← felled.parentOf i hi]
      unfold Database.parentOf
      rw [show Database.group { t₂ with groups := t₂.groups.erase x, «meta» := clearMetaReferences t₂.meta x } i =
        t₂.group i from (Finmap.lookup_erase_eq x i t₂.groups).trans (if_neg hix)]
    · rintro j q hj ⟨z, hz, hb⟩
      rw [Set.mem_singleton_iff.1 hz] at hb
      rcases Below.iff_child.1 hb with rfl | ⟨c, hc, hb⟩
      · exact gone (emptied hj)
      · have hjx : db.homeOf j ≠ some x := by
          rw [hj]; rintro ⟨rfl⟩
          exact Below.acyclic hl.root_parent (hl.rooted (mem_groups_of_parentOf hc)) _ hc hb
        refine felled.gone j q ((homeOf_congr (untouched hjx)).trans hj) ⟨c, ⟨hc, List.not_mem_nil⟩, ?_⟩
        rw [e₁.parentOf]; exact hb
    · have hjx : db.homeOf j ≠ some x := fun h => hj x h x rfl .self
      refine (felled.kept j fun q hq c hc hb => ?_).trans (untouched hjx)
      rw [e₁.parentOf] at hb
      exact hj q ((homeOf_congr (untouched hjx)).symm.trans hq) x rfl ((Below.child hc.1 .self).trans hb)

/-! ## A check -/

/-- A walk up that meets `id` started below it. -/
theorem below_of_meetsUpwards {id : GroupId} {n : Nat} {c : GroupId}
    (h : db.meetsUpwards id n (some c) = some true) : Below db.parentOf id c := by
  induction n generalizing c with
  | zero => cases h
  | succ n ih =>
    simp only [meetsUpwards] at h
    split at h
    · subst_vars; exact .self
    · cases hp : (db.group c).bind (·.parent) with
      | none => rw [hp] at h; cases n <;> cases h
      | some p => exact .child hp (ih (hp ▸ h))

/-- Whether the links of a database are those of a tree. -/
def CheckedLinks (db : Database) : Prop :=
  db.root ∈ db.groups ∧ db.parentOf db.root = none ∧
  (∀ i ∈ db.entries.keys, ∀ e ∈ db.entry i, e.id = i ∧ ∃ g ∈ db.group e.parent, i ∈ g.entries) ∧
  ∀ i ∈ db.groups.keys, ∀ g ∈ db.group i, g.id = i ∧
    db.meetsUpwards db.root (db.groups.keys.card + 1) (some i) = some true ∧
    (∀ j ∈ g.entries, db.homeOf j = some i) ∧ (∀ j ∈ g.groups, db.parentOf j = some i) ∧
    ∀ p ∈ g.parent, ∃ gp ∈ db.group p, i ∈ gp.groups

instance (db : Database) : Decidable db.CheckedLinks := inferInstanceAs (Decidable (_ ∧ _))

theorem CheckedLinks.linked (h : db.CheckedLinks) : Linked db := by
  obtain ⟨hroot, hrootParent, hentries, hgroups⟩ := h
  have entry : ∀ {i e}, db.entry i = some e → e.id = i ∧ ∃ g ∈ db.group e.parent, i ∈ g.entries := fun {i e} he =>
    hentries i (Finmap.mem_keys.2 ((mem_entries db).2 ⟨e, he⟩)) e he
  have group : ∀ {i g}, db.group i = some g → _ := fun {i g} hg =>
    hgroups i (Finmap.mem_keys.2 ((mem_groups db).2 ⟨g, hg⟩)) g hg
  refine ⟨fun he => (entry he).1, fun hg => (group hg).1, hroot, hrootParent, fun {i} hi => ?_, fun he => ?_,
    fun {i g} hg j => ⟨fun hj => (group hg).2.2.1 j hj, fun hj => ?_⟩,
    fun {i g} hg j => ⟨fun hj => ⟨(group hg).2.2.2.1 j hj, Set.notMem_empty j⟩, fun hj => ?_⟩⟩
  · obtain ⟨g, hg⟩ := (mem_groups db).1 hi
    exact below_of_meetsUpwards (group hg).2.1
  · obtain ⟨-, g, hg, -⟩ := entry he
    exact (mem_groups db).2 ⟨g, hg⟩
  · obtain ⟨e, he, rfl⟩ := homeOf_eq_some.1 hj
    obtain ⟨-, g', hg', hjg⟩ := entry he
    obtain rfl := Option.some.inj (hg.symm.trans hg'); exact hjg
  · obtain ⟨c, hc, hcp⟩ := parentOf_eq_some.1 hj.1
    obtain ⟨g', hg', hjg⟩ := (group hc).2.2.2.2 i hcp
    obtain rfl := Option.some.inj (hg.symm.trans hg'); exact hjg

end Keepass.Database
