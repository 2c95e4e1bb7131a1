import Falach.Entry.Search
/-!
# What a search looks at

The walks over the groups end and say which groups are below one another, so an entry is looked at exactly if the
scope and the recycle-bin cut let it pass, in whatever order the maps are walked.
-/

namespace Falach

open Keepass Keepass.Database

variable {fns : TextFunctions} {ids : Enumeration Uuid} {db : Database} {opts : SearchOptions} {id x target : Uuid}
    {e : Entry}

/-- The entry is in the recycle bin or in a group below it. -/
def InRecycleBin (db : Database) (e : Entry) : Prop := ∃ bin, recycleBin db = some bin ∧ Below db.parentOf bin e.parent

/-- The entry passes the scope. -/
def InScope (fns : TextFunctions) (db : Database) (e : Entry) : SearchScope → Prop
  | .all => True
  | .groupSubtree target => target ∈ db.groups ∧ Below db.parentOf target e.parent
  | .tag tag => ∃ t ∈ e.tags, fns.lowercase t = fns.lowercase tag

/-- The entries that a search looks at. -/
structure Searched (fns : TextFunctions) (db : Database) (opts : SearchOptions) (id : EntryId) (e : Entry) : Prop where
  entry : db.entry id = some e
  cut : opts.includeRecycled = true ∨ ¬ InRecycleBin db e
  inScope : InScope fns db e opts.scope

/-! ## Walks over the groups -/

theorem depth_lt_card (h : Linked db) {k : Nat} (hk : Depth db.parentOf db.root k x) :
    k < db.groups.keys.card := by
  refine hk.lt_card h.root_parent fun z hz => Finmap.mem_keys.2 ?_
  rcases Below.iff_parent.1 hz with rfl | ⟨_, hp, -⟩
  · exact h.root_mem
  · exact mem_groups_of_parentOf hp

theorem mem_children (ids : Enumeration Uuid) (hl : Linked db) {g : Group} (hg : db.group x = some g) (c : GroupId) :
    c ∈ ids.list g.groups ↔ db.parentOf c = some x := by
  rw [ids.mem_list, hl.child_groups hg]
  exact and_iff_left (Set.notMem_empty c)

/-- The groups that are collected are those below the first one. -/
theorem collectGroupIds_ok (hl : Linked db) {fuel k : Nat} (set : Finset GroupId) (hx : x ∈ db.groups)
    (hk : Depth db.parentOf db.root k x) (hfuel : db.groups.keys.card ≤ k + fuel) :
    ∃ set', collectGroupIds ids db fuel set x = .ok set' ∧ ∀ y, y ∈ set' ↔ y ∈ set ∨ Below db.parentOf x y := by
  induction fuel generalizing x k set with
  | zero =>
    have hlt := depth_lt_card hl hk
    omega
  | succ fuel ih =>
    obtain ⟨g, hg⟩ := (mem_groups db).1 hx
    obtain ⟨set', hset', hmem⟩ := Loop.foldlM_total_rest (f := fun set child => collectGroupIds ids db fuel set child)
      (l := ids.list g.groups) (s := insert x set)
      (fun rest set' => ∀ y, y ∈ set' ↔ y ∈ insert x set ∨ ∃ c ∈ ids.list g.groups, c ∉ rest ∧ Below db.parentOf c y)
      (fun c rest set' hsuf hset' => by
        have hnodup := (ids.nodup_list g.groups).sublist hsuf.sublist
        have hc : db.parentOf c = some x := (mem_children ids hl hg c).1 (hsuf.subset List.mem_cons_self)
        obtain ⟨set'', h, hmem⟩ := ih set' (mem_groups_of_parentOf hc) (.child hc hk) (by omega)
        refine ⟨set'', h, fun y => ?_⟩
        rw [hmem, hset']
        constructor
        · rintro ((hy | ⟨d, hd, hdr, hb⟩) | hb)
          · exact .inl hy
          · exact .inr ⟨d, hd, fun hdr' => hdr (List.mem_cons_of_mem c hdr'), hb⟩
          · exact .inr ⟨c, hsuf.subset List.mem_cons_self, (List.nodup_cons.1 hnodup).1, hb⟩
        · rintro (hy | ⟨d, hd, hdr, hb⟩)
          · exact .inl (.inl hy)
          · by_cases hdc : d = c
            · exact .inr (hdc ▸ hb)
            · refine .inl (.inr ⟨d, hd, fun hd' => ?_, hb⟩)
              rcases List.mem_cons.1 hd' with hd' | hd'
              · exact hdc hd'
              · exact hdr hd')
      (fun y => ⟨.inl, fun h => h.resolve_right fun ⟨c, hc, hnot, _⟩ => hnot hc⟩)
    refine ⟨set', Loop.bind_ok.2 ⟨g, expect_ok.2 hg, hset'⟩, fun y => ?_⟩
    rw [hmem, Finset.mem_insert, Below.iff_child (x := x)]
    constructor
    · rintro ((rfl | hy) | ⟨c, hc, -, hb⟩)
      · exact .inr (.inl rfl)
      · exact .inl hy
      · exact .inr (.inr ⟨c, (mem_children ids hl hg c).1 hc, hb⟩)
    · rintro (hy | rfl | ⟨c, hc, hb⟩)
      · exact .inl (.inr hy)
      · exact .inl (.inl rfl)
      · exact .inr ⟨c, (mem_children ids hl hg c).2 hc, List.not_mem_nil, hb⟩

theorem collectSubtreeGroupIds_ok (ids : Enumeration Uuid) (hl : Linked db) (target : Uuid) :
    ∃ set, collectSubtreeGroupIds ids db target = .ok set ∧
    ∀ y, y ∈ set ↔ target ∈ db.groups ∧ Below db.parentOf target y := by
  rw [collectSubtreeGroupIds]
  cases hfind : (ids.list db.groups.keys).find? (· = target) with
  | none =>
    have hnot : target ∉ db.groups := fun h => by
      have hne := List.find?_eq_none.1 hfind target (ids.mem_list _ |>.2 (Finmap.mem_keys.2 h))
      exact hne (decide_eq_true rfl)
    exact ⟨∅, rfl, fun y => iff_of_false (Finset.notMem_empty y) fun h => hnot h.1⟩
  | some group =>
    obtain rfl : group = target := by simpa using List.find?_some hfind
    have hgroup : group ∈ db.groups := Finmap.mem_keys.1 ((ids.mem_list _).1 (List.mem_of_find?_eq_some hfind))
    obtain ⟨k, hk⟩ := (hl.rooted hgroup).depth
    obtain ⟨set, hset, hmem⟩ : ∃ set, collectGroupIds ids db (db.groups.keys.card + 1) ∅ group = .ok set ∧ _ :=
      collectGroupIds_ok hl ∅ hgroup hk (by omega)
    refine ⟨set, hset, fun y => ?_⟩
    rw [hmem]
    simp [hgroup]

/-- A group contains the entries of the groups below it. -/
theorem groupContainsEntry_ok (hl : Linked db) {fuel k : Nat} (he : db.entry id = some e) (hx : x ∈ db.groups)
    (hk : Depth db.parentOf db.root k x) (hfuel : db.groups.keys.card ≤ k + fuel) :
    ∃ b, groupContainsEntry ids db id fuel x = .ok b ∧ (b = true ↔ Below db.parentOf x e.parent) := by
  induction fuel generalizing x k with
  | zero =>
    have hlt := depth_lt_card hl hk
    omega
  | succ fuel ih =>
    obtain ⟨g, hg⟩ := (mem_groups db).1 hx
    have hhere : id ∈ g.entries ↔ e.parent = x := by
      rw [hl.child_entries hg, homeOf_of_entry he, Option.some.injEq]
    by_cases hid : id ∈ g.entries
    · refine ⟨true, Loop.bind_ok.2 ⟨g, expect_ok.2 hg, by rw [if_pos hid]; rfl⟩, iff_of_true rfl ?_⟩
      rw [hhere.1 hid]
      exact .self
    · have hchild : ∀ c ∈ ids.list g.groups, ∃ b, groupContainsEntry ids db id fuel c = .ok b ∧
          (b = true ↔ Below db.parentOf c e.parent) := by
        intro c hc
        have hparent := (mem_children ids hl hg c).1 hc
        exact ih (mem_groups_of_parentOf hparent) (.child hparent hk) (by omega)
      obtain ⟨b, hb, hiff⟩ := Loop.anyM_total fun c hc => (hchild c hc).imp fun _ h => h.1
      refine ⟨b, Loop.bind_ok.2 ⟨g, expect_ok.2 hg, by rw [if_neg hid]; exact hb⟩, hiff.trans ?_⟩
      rw [Below.iff_child]
      constructor
      · rintro ⟨c, hc, hyes⟩
        obtain ⟨b', hb', hbelow⟩ := hchild c hc
        rw [hb'] at hyes
        exact .inr ⟨c, (mem_children ids hl hg c).1 hc, hbelow.1 (Except.ok.inj hyes)⟩
      · rintro (heq | ⟨c, hc, hbelow⟩)
        · exact absurd (hhere.2 heq) hid
        · have hc' := (mem_children ids hl hg c).2 hc
          obtain ⟨b', hb', hbelow'⟩ := hchild c hc'
          exact ⟨c, hc', hb'.trans (congrArg _ (hbelow'.2 hbelow))⟩

theorem isEntryInRecycleBin_ok (ids : Enumeration Uuid) (hl : Linked db) (he : db.entry id = some e) :
    ∃ b, isEntryInRecycleBin ids db id = .ok b ∧ (b = true ↔ InRecycleBin db e) := by
  rw [isEntryInRecycleBin, InRecycleBin]
  cases hbin : recycleBin db with
  | none => exact ⟨false, rfl, by simp⟩
  | some bin =>
    have hmem : bin ∈ db.groups := by simpa using (Option.filter_eq_some_iff.1 hbin).2
    obtain ⟨k, hk⟩ := (hl.rooted hmem).depth
    obtain ⟨b, hb, hiff⟩ : ∃ b, groupContainsEntry ids db id (db.groups.keys.card + 1) bin = .ok b ∧ _ :=
      groupContainsEntry_ok hl he hmem hk (by omega)
    exact ⟨b, hb, hiff.trans (by simp)⟩

/-! ## The entries that are left -/

theorem prepareScope_ok (hl : Linked db) (scope : SearchScope) :
    ∃ isInScope, prepareScope fns ids db scope = .ok isInScope ∧
    ∀ {id e}, db.entry id = some e → ∃ b, isInScope e = .ok b ∧ (b = true ↔ InScope fns db e scope) := by
  cases scope with
  | all => exact ⟨_, rfl, fun _ => ⟨true, rfl, iff_of_true rfl trivial⟩⟩
  | groupSubtree target =>
    obtain ⟨set, hset, hmem⟩ := collectSubtreeGroupIds_ok ids hl target
    refine ⟨inScope fns db (some set) none, by rw [prepareScope, hset]; rfl, fun {id e} he => ?_⟩
    obtain ⟨g, hg⟩ := (mem_groups db).1 (hl.home he)
    refine ⟨decide (e.parent ∈ set), ?_, by rw [decide_eq_true_iff, hmem]; rfl⟩
    rw [inScope, expect_ok.2 hg]
    exact congrArg Except.ok (Bool.and_true _)
  | tag tag =>
    refine ⟨_, rfl, fun {id e} _ => ⟨e.tags.any fun t => fns.lowercase t = fns.lowercase tag, ?_, ?_⟩⟩
    · exact congrArg Except.ok (Bool.true_and _)
    · simp [InScope]

theorem keepScoped_ok (ids : Enumeration Uuid) (hl : Linked db) {isInScope : Entry → Except Fault Bool}
    (hscope : ∀ {id e}, db.entry id = some e → ∃ b, isInScope e = .ok b ∧ (b = true ↔ InScope fns db e opts.scope))
    (he : db.entry id = some e) (found : List (EntryId × Entry)) :
    (Searched fns db opts id e ∧ keepScoped ids db opts.includeRecycled isInScope found id = .ok (found ++ [(id, e)])) ∨
      (¬ Searched fns db opts id e ∧ keepScoped ids db opts.includeRecycled isInScope found id = .ok found) := by
  obtain ⟨isIn, hin, hiff⟩ := hscope he
  obtain ⟨isCut, hcut, hiff'⟩ : ∃ isCut, isCutOff ids db opts.includeRecycled id = .ok isCut ∧
      (isCut = false ↔ opts.includeRecycled = true ∨ ¬ InRecycleBin db e) := by
    by_cases hr : opts.includeRecycled = true
    · exact ⟨false, if_pos hr, iff_of_true rfl (.inl hr)⟩
    · obtain ⟨b, hb, hbin⟩ := isEntryInRecycleBin_ok ids hl he
      refine ⟨b, (if_neg hr).trans hb, ?_⟩
      rw [or_iff_right hr, ← hbin, Bool.not_eq_true]
  have hrun : keepScoped ids db opts.includeRecycled isInScope found id =
      if isCut then .ok found else if isIn then .ok (found ++ [(id, e)]) else .ok found := by
    rw [keepScoped, expect_ok.2 he, hcut]
    cases isCut with
    | true => rfl
    | false =>
      change (isInScope e >>= fun isIn => if isIn = true then pure (found ++ [(id, e)]) else pure found) = _
      rw [hin]
      rfl
  cases isCut with
  | true => exact .inr ⟨fun h => by simpa using hiff'.2 h.cut, hrun⟩
  | false =>
    cases isIn with
    | true => exact .inl ⟨⟨he, hiff'.1 rfl, hiff.1 rfl⟩, hrun⟩
    | false => exact .inr ⟨fun h => by simpa using hiff.2 h.inScope, hrun⟩

/-- The walk over the map leaves the entries that are searched, each once. -/
theorem scopedEntries_ok (hl : Linked db) {isInScope : Entry → Except Fault Bool}
    (hscope : ∀ {id e}, db.entry id = some e → ∃ b, isInScope e = .ok b ∧ (b = true ↔ InScope fns db e opts.scope)) :
    ∃ found, scopedEntries ids db opts.includeRecycled isInScope = .ok found ∧ (found.map Prod.fst).Nodup ∧
      ∀ id e, (id, e) ∈ found ↔ Searched fns db opts id e := by
  have walk : ∀ (l : List EntryId) (found : List (EntryId × Entry)), (∀ id ∈ l, id ∈ db.entries) →
      ∃ more, l.foldlM (keepScoped ids db opts.includeRecycled isInScope) found = .ok (found ++ more) ∧
        (more.map Prod.fst).Sublist l ∧ ∀ id e, (id, e) ∈ more ↔ id ∈ l ∧ Searched fns db opts id e := by
    intro l
    induction l with
    | nil => exact fun found _ => ⟨[], congrArg Except.ok (List.append_nil _).symm, List.Sublist.refl _, by simp⟩
    | cons id l ih =>
      intro found hall
      obtain ⟨e, he⟩ := (mem_entries db).1 (hall id List.mem_cons_self)
      have hrest := fun id' hid' => hall id' (List.mem_cons_of_mem id hid')
      have same : ∀ e', Searched fns db opts id e' → e' = e := fun e' h => Option.some.inj (h.entry.symm.trans he)
      rcases keepScoped_ok ids hl hscope he found with ⟨hs, hstep⟩ | ⟨hs, hstep⟩
      · obtain ⟨more, hmore, hsub, hmem⟩ := ih (found ++ [(id, e)]) hrest
        refine ⟨(id, e) :: more, ?_, hsub.cons_cons id, fun id' e' => ?_⟩
        · exact Loop.foldlM_cons_ok.2 ⟨_, hstep, by rw [hmore, List.append_assoc]; rfl⟩
        · rw [List.mem_cons, hmem, List.mem_cons, Prod.mk.injEq]
          constructor
          · rintro (⟨rfl, rfl⟩ | ⟨hl', hs'⟩)
            · exact ⟨.inl rfl, hs⟩
            · exact ⟨.inr hl', hs'⟩
          · rintro ⟨rfl | hl', hs'⟩
            · exact .inl ⟨rfl, same _ hs'⟩
            · exact .inr ⟨hl', hs'⟩
      · obtain ⟨more, hmore, hsub, hmem⟩ := ih found hrest
        refine ⟨more, Loop.foldlM_cons_ok.2 ⟨_, hstep, hmore⟩, hsub.cons id, fun id' e' => ?_⟩
        rw [hmem, List.mem_cons]
        constructor
        · rintro ⟨hl', hs'⟩
          exact ⟨.inr hl', hs'⟩
        · rintro ⟨rfl | hl', hs'⟩
          · exact absurd (same _ hs' ▸ hs') hs
          · exact ⟨hl', hs'⟩
  obtain ⟨found, hfound, hsub, hmem⟩ := walk (ids.list db.entries.keys) [] fun id hid =>
    Finmap.mem_keys.1 ((ids.mem_list _).1 hid)
  refine ⟨found, hfound, (ids.nodup_list _).sublist hsub, fun id e =>
    (hmem id e).trans (and_iff_right_of_imp fun h => ?_)⟩
  exact (ids.mem_list _).2 (Finmap.mem_keys.2 ((mem_entries db).2 ⟨e, h.entry⟩))

end Falach
