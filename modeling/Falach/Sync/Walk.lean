import Falach.Keepass.Tree
import Falach.Sync.Reconcile
/-!
# Live entries

What the walks of `reconcile` from the root find: every entry of the tree, and nothing else.
-/

namespace Falach

open Keepass

variable {env : Env} {db : Database}

/-! ## The tree -/

/-- The groups the walk from the root visits. -/
inductive InTree (db : Database) : GroupId → Prop where
  | root : InTree db db.root
  | child {p c : GroupId} {g : Group} : InTree db p → db.group p = some g → c ∈ g.groups → InTree db c

/-- The entry UUIDs the walk from the root visits. -/
def Live (db : Database) (id : EntryId) : Prop := ∃ p g, InTree db p ∧ db.group p = some g ∧ id ∈ g.entries

/-- Every entry is stored under its own UUID. -/
def Keyed (db : Database) : Prop := ∀ id e, db.entry id = some e → e.id = id

/-! ## What the walks return -/

/-- What a walk returns: the entries of the group, and what the walks of its subgroups return. -/
theorem walk_succ {site : Site} {n : Nat} {id : GroupId} {out : List Entry}
    (h : walk env site db (n + 1) id = .ok out) :
    ∃ g, db.group id = some g ∧ (∀ e ∈ g.entries, ∃ x ∈ out, db.entry e = some x) ∧
      (∀ c ∈ g.groups, ∃ below, walk env site db n c = .ok below ∧ below ⊆ out) ∧
      (∀ x ∈ out, (∃ e ∈ g.entries, db.entry e = some x) ∨
        ∃ c ∈ g.groups, ∃ below, walk env site db n c = .ok below ∧ x ∈ below) := by
  simp only [walk, Loop.bind_ok, expect_ok, Loop.pure_ok] at h
  obtain ⟨g, hg, es, hes, bs, hbs, rfl⟩ := h
  refine ⟨g, hg, ?_, ?_, ?_⟩
  · intro e he
    obtain ⟨x, hx, hf⟩ := Loop.mapM_ok_mem hes (((env.ids site).mem_list _).2 he)
    exact ⟨x, List.mem_append_left _ hx, expect_ok.1 hf⟩
  · intro c hc
    obtain ⟨b, hb, hf⟩ := Loop.mapM_ok_mem hbs (((env.ids site).mem_list _).2 hc)
    exact ⟨b, hf, fun x hx => List.mem_append_right _ (List.mem_flatten_of_mem hb hx)⟩
  · intro x hx
    rcases List.mem_append.1 hx with hx | hx
    · obtain ⟨e, he, hf⟩ := Loop.mapM_ok_of_mem hes hx
      exact .inl ⟨e, ((env.ids site).mem_list _).1 he, expect_ok.1 hf⟩
    · obtain ⟨b, hb, hx⟩ := List.mem_flatten.1 hx
      obtain ⟨c, hc, hf⟩ := Loop.mapM_ok_of_mem hbs hb
      exact .inr ⟨c, ((env.ids site).mem_list _).1 hc, b, hf, hx⟩

/-- A walk from the root that ends has visited every group of the tree. -/
theorem walk_of_inTree {site : Site} {out : List Entry} (h : collectLiveEntries env site db = .ok out) {id : GroupId}
    (hi : InTree db id) : ∃ n below, walk env site db (n + 1) id = .ok below ∧ below ⊆ out := by
  induction hi with
  | root => exact ⟨_, out, h, List.Subset.refl out⟩
  | child _ hg hc ih =>
    obtain ⟨n, below, hw, hs⟩ := ih
    obtain ⟨g', hg', -, hsub, -⟩ := walk_succ hw
    rw [hg, Option.some.injEq] at hg'; subst hg'
    obtain ⟨below', hw', hs'⟩ := hsub _ hc
    cases n with
    | zero => cases hw'
    | succ n => exact ⟨n, below', hw', List.Subset.trans hs' hs⟩

theorem collectLiveEntries_complete {site : Site} {out : List Entry} (h : collectLiveEntries env site db = .ok out)
    {id : EntryId} (hl : Live db id) : ∃ e ∈ out, db.entry id = some e := by
  obtain ⟨p, g, hi, hg, he⟩ := hl
  obtain ⟨n, below, hw, hs⟩ := walk_of_inTree h hi
  obtain ⟨g', hg', hes, -⟩ := walk_succ hw
  rw [hg, Option.some.injEq] at hg'; subst hg'
  obtain ⟨x, hx, hxe⟩ := hes id he
  exact ⟨x, hs hx, hxe⟩

theorem walk_sound {site : Site} {n : Nat} {id : GroupId} {out : List Entry} (h : walk env site db n id = .ok out)
    (hi : InTree db id) : ∀ x ∈ out, ∃ e, Live db e ∧ db.entry e = some x := by
  induction n generalizing id out with
  | zero => cases h
  | succ n ih =>
    obtain ⟨g, hg, -, -, hout⟩ := walk_succ h
    intro x hx
    rcases hout x hx with ⟨e, he, hx⟩ | ⟨c, hc, below, hw, hx⟩
    · exact ⟨e, ⟨id, g, hi, hg, he⟩, hx⟩
    · exact ih hw (.child hi hg hc) x hx

theorem collectLiveEntries_sound {site : Site} {out : List Entry} (h : collectLiveEntries env site db = .ok out)
    {x : Entry} (hx : x ∈ out) : ∃ e, Live db e ∧ db.entry e = some x := walk_sound h .root x hx

/-! ## Linked trees -/

/-- In a linked tree the walk visits every group. -/
theorem inTree_iff (hl : db.Linked) {id : GroupId} : InTree db id ↔ id ∈ db.groups := by
  constructor
  · intro h
    induction h with
    | root => exact hl.root_mem
    | child _ hg hc _ => exact Database.mem_groups_of_parentOf ((hl.child_groups hg _).1 hc).1
  · intro h
    have hb := hl.rooted h
    induction hb with
    | self => exact .root
    | @child i p hp _ ih =>
      obtain ⟨g, hg⟩ := (Database.mem_groups db).1 (hl.parent_mem hp)
      exact .child (ih (hl.parent_mem hp)) hg ((hl.child_groups hg i).2 ⟨hp, Set.notMem_empty i⟩)

/-- In a linked tree every entry is live. -/
theorem live_iff (hl : db.Linked) {id : EntryId} : Live db id ↔ id ∈ db.entries := by
  constructor
  · rintro ⟨p, g, -, hg, he⟩
    obtain ⟨e, he, -⟩ := Database.homeOf_eq_some.1 ((hl.child_entries hg id).1 he)
    exact (Database.mem_entries db).2 ⟨e, he⟩
  · intro h
    obtain ⟨e, he⟩ := (Database.mem_entries db).1 h
    obtain ⟨g, hg⟩ := (Database.mem_groups db).1 (hl.home he)
    exact ⟨e.parent, g, (inTree_iff hl).2 (hl.home he), hg, (hl.child_entries hg id).2 (Database.homeOf_of_entry he)⟩

/-- The walk of a linked tree finds its entries. -/
theorem mem_collectLiveEntries {site : Site} {out : List Entry} (hl : db.Linked)
    (h : collectLiveEntries env site db = .ok out) {e : Entry} : e ∈ out ↔ db.entry e.id = some e := by
  constructor
  · intro he
    obtain ⟨i, -, hi⟩ := collectLiveEntries_sound h he
    rw [hl.entry_id hi]; exact hi
  · intro he
    obtain ⟨x, hx, hxe⟩ := collectLiveEntries_complete h ((live_iff hl).2 ((Database.mem_entries db).2 ⟨e, he⟩))
    rw [he, Option.some.injEq] at hxe; subst hxe
    exact hx

theorem mem_ids_collectLiveEntries {site : Site} {out : List Entry} (hl : db.Linked)
    (h : collectLiveEntries env site db = .ok out) {id : EntryId} : id ∈ out.map (·.id) ↔ id ∈ db.entries := by
  rw [List.mem_map, Database.mem_entries]
  constructor
  · rintro ⟨e, he, rfl⟩
    exact ⟨e, (mem_collectLiveEntries hl h).1 he⟩
  · rintro ⟨e, he⟩
    have hid := hl.entry_id he
    exact ⟨e, (mem_collectLiveEntries hl h).2 (hid ▸ he), hid⟩

/-- A walk of a linked tree finds each entry once, in a group below the one it started from. -/
theorem walk_nodup {site : Site} {n : Nat} {id : GroupId} {out : List Entry} (hl : db.Linked) (hid : id ∈ db.groups)
    (h : walk env site db n id = .ok out) :
    (out.map (·.id)).Nodup ∧ ∀ x ∈ out, ∃ p, db.homeOf x.id = some p ∧ Below db.parentOf id p := by
  induction n generalizing id out with
  | zero => cases h
  | succ n ih =>
    simp only [walk, Loop.bind_ok, expect_ok, Loop.pure_ok] at h
    obtain ⟨g, hg, es, hes, bs, hbs, rfl⟩ := h
    -- the entries of the group itself
    have own : es.map (·.id) = (env.ids site).list g.entries := by
      have := Loop.mapM_forall₂ hes
      clear hes
      generalize (env.ids site).list g.entries = l at this
      induction this with
      | nil => rfl
      | cons hx _ ih => rw [List.map_cons, ih, hl.entry_id (expect_ok.1 hx)]
    have home : ∀ x ∈ es, db.homeOf x.id = some id := by
      intro x hx
      have : x.id ∈ (env.ids site).list g.entries := by rw [← own]; exact List.mem_map_of_mem hx
      exact (hl.child_entries hg _).1 (((env.ids site).mem_list _).1 this)
    -- the subgroups, each with what is below it
    have parent : ∀ c ∈ (env.ids site).list g.groups, db.parentOf c = some id := fun c hc =>
      ((hl.child_groups hg c).1 (((env.ids site).mem_list _).1 hc)).1
    have rooted : ∀ {c}, db.parentOf c = some id → Below db.parentOf db.root c := fun hc =>
      hl.rooted (Database.mem_groups_of_parentOf hc)
    have below : (bs.flatten.map (·.id)).Nodup ∧ ∀ x ∈ bs.flatten, ∃ c ∈ (env.ids site).list g.groups, ∃ p,
        db.homeOf x.id = some p ∧ Below db.parentOf c p := by
      have hwalks := Loop.mapM_forall₂ hbs
      have hn := (env.ids site).nodup_list g.groups
      clear hbs
      generalize (env.ids site).list g.groups = l at hwalks hn parent
      induction hwalks with
      | nil => exact ⟨List.nodup_nil, fun x hx => by cases hx⟩
      | @cons c b l bs hb _ ihl =>
        have hc := parent c List.mem_cons_self
        obtain ⟨hbn, hbhome⟩ := ih (Database.mem_groups_of_parentOf hc) hb
        obtain ⟨hrest, hresthome⟩ := ihl (List.nodup_cons.1 hn).2 fun c' hc' => parent c' (List.mem_cons_of_mem c hc')
        rw [List.flatten_cons, List.map_append]
        refine ⟨List.nodup_append.2 ⟨hbn, hrest, ?_⟩, fun x hx => ?_⟩
        · rintro i hi j hj rfl
          obtain ⟨x, hx, rfl⟩ := List.mem_map.1 hi
          obtain ⟨y, hy, hxy⟩ := List.mem_map.1 hj
          obtain ⟨p, hp, hcp⟩ := hbhome x hx
          obtain ⟨c', hc', p', hp', hcp'⟩ := hresthome y hy
          rw [hxy, hp, Option.some.injEq] at hp'; subst hp'
          have hc'p := parent c' (List.mem_cons_of_mem c hc')
          obtain rfl : c = c' := Below.siblings hl.root_parent (rooted hc) (rooted hc'p) hc hc'p hcp hcp'
          exact (List.nodup_cons.1 hn).1 hc'
        · rcases List.mem_append.1 hx with hx | hx
          · exact ⟨c, List.mem_cons_self, hbhome x hx⟩
          · obtain ⟨c', hc', hp⟩ := hresthome x hx
            exact ⟨c', List.mem_cons_of_mem c hc', hp⟩
    rw [List.map_append, own]
    refine ⟨List.nodup_append.2 ⟨(env.ids site).nodup_list _, below.1, ?_⟩, fun x hx => ?_⟩
    · rintro i hi j hj rfl
      obtain ⟨x, hx, rfl⟩ := List.mem_map.1 hj
      obtain ⟨c, hc, p, hp, hcp⟩ := below.2 x hx
      have := (hl.child_entries hg _).1 (((env.ids site).mem_list _).1 hi)
      rw [hp, Option.some.injEq] at this; subst this
      exact Below.acyclic hl.root_parent (rooted (parent c hc)) _ (parent c hc) hcp
    · rcases List.mem_append.1 hx with hx | hx
      · exact ⟨id, home x hx, .self⟩
      · obtain ⟨c, hc, p, hp, hcp⟩ := below.2 x hx
        exact ⟨p, hp, (Below.child (parent c hc) .self).trans hcp⟩

theorem collectLiveEntries_nodup {site : Site} {out : List Entry} (hl : db.Linked)
    (h : collectLiveEntries env site db = .ok out) : (out.map (·.id)).Nodup := (walk_nodup hl hl.root_mem h).1

/-- A linked tree is no deeper than it has groups, so its walks end. -/
theorem walk_total {site : Site} (hl : db.Linked) {n k : Nat} {id : GroupId} (hd : Depth db.parentOf db.root k id)
    (hid : id ∈ db.groups) (hn : db.groups.keys.card < n + k + 1) : ∃ out, walk env site db n id = .ok out := by
  induction n generalizing k id with
  | zero =>
    have : _ < db.groups.keys.card := hd.lt_card hl.root_parent fun z hz => Finmap.mem_keys.2 (by
      rcases Below.iff_parent.1 hz with rfl | ⟨_, hp, -⟩
      · exact hl.root_mem
      · exact Database.mem_groups_of_parentOf hp)
    omega
  | succ n ih =>
    obtain ⟨g, hg⟩ := (Database.mem_groups db).1 hid
    obtain ⟨es, hes⟩ := Loop.mapM_total (f := fun e => expect (db.entry e)) (l := (env.ids site).list g.entries)
      fun e he => by
        obtain ⟨x, hx, -⟩ := Database.homeOf_eq_some.1 ((hl.child_entries hg e).1 (((env.ids site).mem_list _).1 he))
        exact ⟨x, expect_ok.2 hx⟩
    obtain ⟨below, hbelow⟩ := Loop.mapM_total (f := walk env site db n) (l := (env.ids site).list g.groups)
      fun c hc => by
        have hc := ((hl.child_groups hg c).1 (((env.ids site).mem_list _).1 hc)).1
        exact ih (.child hc hd) (Database.mem_groups_of_parentOf hc) (by omega)
    refine ⟨es ++ below.flatten, ?_⟩
    simp only [walk, Loop.bind_ok, expect_ok]
    exact ⟨g, hg, es, hes, below, hbelow, rfl⟩

theorem collectLiveEntries_total (env : Env) (site : Site) (hl : db.Linked) :
    ∃ out, collectLiveEntries env site db = .ok out :=
  walk_total hl .root hl.root_mem (by omega)

theorem entryTimes_total (env : Env) (site : Site) (hl : db.Linked) : ∃ times, entryTimes env site db = .ok times := by
  obtain ⟨out, hout⟩ := collectLiveEntries_total env site hl
  exact ⟨_, Loop.bind_ok.2 ⟨out, hout, rfl⟩⟩

end Falach
