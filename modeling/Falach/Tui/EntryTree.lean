import Falach.Entry.Scopes
import Falach.Keepass.Subtrees
import Falach.Lib.Preorder
import Falach.Tui.Widgets
import Mathlib.Data.Int.ConditionallyCompleteOrder
/-!
# The rows of the entry tree

`build_rows` flattens the groups and entries that are shown into rows, and the moves of `TreeState` work on rows alone.
The rows are an outline of the database, so that a move to the parent finds the parent, and no run of moves loses the
selection.
-/

namespace Falach.Tui

open Keepass Database

/-! ## The code -/

/-- `Recents::rank`. -/
def Recents.rank (r : Recents) (uuid : Uuid) : Option Nat := r.order.findIdx? (· = uuid)

section

variable (lowercase : String → String) (db : Database) (state : TreeState) (recents : Recents)

/-- The groups in a group by their names, without the recycle bin. -/
def childGroups (g : Group) : List GroupId :=
  ((((Enumeration.sorted.list g.groups).filter fun id => some id ≠ recycleBin db).filterMap fun id =>
    (db.group id).map fun child => (lowercase child.name, id)).insertionSort fun a b => toLex a ≤ toLex b).map Prod.snd

/-- `title_key`. -/
def titleKey (id : EntryId) : String := ((db.entry id).map fun e => lowercase (fieldText e titleField)).getD ""

def lastModified (id : EntryId) : Option NaiveDateTime := (db.entry id).bind fun e => e.times.lastModification

/-- `sort_entries`: an entry that was never used comes after those that were, and one without a time after those with
one. -/
def sortEntries (entries : List EntryId) : List EntryId :=
  match state.sort with
  | .group => entries
  | .title => entries.insertionSort fun a b => toLex (titleKey lowercase db a, a) ≤ toLex (titleKey lowercase db b, b)
  | .recentlyUsed => entries.insertionSort fun a b =>
    let key (id : EntryId) : WithTop Nat ×ₗ String ×ₗ EntryId := toLex (recents.rank id, toLex (titleKey lowercase db id, id))
    key a ≤ key b
  | .lastModified => entries.insertionSort fun a b =>
    let key (id : EntryId) : (WithBot NaiveDateTime)ᵒᵈ ×ₗ EntryId := toLex (OrderDual.toDual (lastModified db id), id)
    key a ≤ key b

/-- The entries in a group. -/
def childEntries (g : Group) : List EntryId := sortEntries lowercase db state recents (Enumeration.sorted.list g.entries)

def hasChildren (id : GroupId) : Bool := (db.group id).any fun g => g.groups ≠ ∅ ∨ g.entries ≠ ∅

def groupRow (id : GroupId) (depth : Nat) : TreeRow := ⟨id, depth, .group (id ∈ state.expanded) (hasChildren db id)⟩

/-- `walk`; the recursion has no bound, and the first argument is one. -/
def walk : Nat → GroupId → Nat → List TreeRow
  | 0, _, _ => []
  | n + 1, id, depth =>
    match db.group id with
    | none => []
    | some g =>
      ((childGroups lowercase db g).flatMap fun child =>
        groupRow db state child depth :: if child ∈ state.expanded then walk n child (depth + 1) else []) ++
      (childEntries lowercase db state recents g).map fun entry => ⟨entry, depth, .entry⟩

/-- `build_rows`; no group is deeper than there are groups. -/
def buildRows : List TreeRow := walk lowercase db state recents db.groups.keys.card db.root 0

end

/-! ## What is shown -/

/-- What a row stands for. -/
inductive Node where
  | group (id : GroupId)
  | entry (id : EntryId)
deriving DecidableEq

namespace Node

def uuid : Node → Uuid
  | group id => id
  | entry id => id

/-- A group and an entry can have one uuid. -/
def name : Node → Uuid × Bool
  | group id => (id, true)
  | entry id => (id, false)

theorem name_injective : Function.Injective name := by
  intro x y h
  cases x <;> cases y <;> cases h <;> rfl

end Node

/-- Whether what is in a group is shown, if the group is: the root has no row. -/
def Open (db : Database) (expanded : Finset Uuid) (id : GroupId) : Prop := id = db.root ∨ id ∈ expanded

instance (db : Database) (expanded : Finset Uuid) (id : GroupId) : Decidable (Open db expanded id) :=
  inferInstanceAs (Decidable (_ ∨ _))

/-- The group that a node is shown in, if it is open; the recycle bin is not shown anywhere. -/
def shownIn (db : Database) (expanded : Finset Uuid) : Node → Option Node
  | .group id => if some id = recycleBin db then none else ((db.parentOf id).filter (Open db expanded ·)).map .group
  | .entry id => ((db.homeOf id).filter (Open db expanded ·)).map .group

section

variable (lowercase : String → String) (db : Database) (state : TreeState) (recents : Recents)

/-- The nodes that are shown in a node, in the order of their rows. -/
def shownChildren : Node → List Node
  | .entry _ => []
  | .group id =>
    if Open db state.expanded id then
      (db.group id).elim [] fun g =>
        (childGroups lowercase db g).map .group ++ (childEntries lowercase db state recents g).map .entry
    else []

def treeRowOf (x : Node × Nat) : TreeRow :=
  match x.1 with
  | .group id => groupRow db state id x.2
  | .entry id => ⟨id, x.2, .entry⟩

variable {lowercase db state recents} {expanded : Finset Uuid}

theorem childEntries_perm (g : Group) :
    (childEntries lowercase db state recents g).Perm (Enumeration.sorted.list g.entries) := by
  unfold childEntries sortEntries
  cases state.sort with
  | group => exact .refl _
  | title => exact List.perm_insertionSort _ _
  | recentlyUsed => exact List.perm_insertionSort _ _
  | lastModified => exact List.perm_insertionSort _ _

theorem mem_childEntries (hl : Linked db) {id : GroupId} {g : Group} (hg : db.group id = some g) {e : EntryId} :
    e ∈ childEntries lowercase db state recents g ↔ db.homeOf e = some id := by
  rw [(childEntries_perm g).mem_iff, Enumeration.mem_list, hl.child_entries hg]

theorem mem_childGroups (hl : Linked db) {id : GroupId} {g : Group} (hg : db.group id = some g) {c : GroupId} :
    c ∈ childGroups lowercase db g ↔ some c ≠ recycleBin db ∧ db.parentOf c = some id := by
  unfold childGroups
  simp only [List.mem_map, List.mem_insertionSort, List.mem_filterMap, List.mem_filter, Enumeration.mem_list,
    decide_eq_true_eq, Option.map_eq_some_iff]
  constructor
  · rintro ⟨p, ⟨b, ⟨hb, hbin⟩, child, -, rfl⟩, rfl⟩
    exact ⟨hbin, ((hl.child_groups hg b).1 hb).1⟩
  · rintro ⟨hbin, hc⟩
    obtain ⟨child, hchild, -⟩ := parentOf_eq_some.1 hc
    exact ⟨(lowercase child.name, c), ⟨c, ⟨(hl.child_groups hg c).2 ⟨hc, Set.notMem_empty c⟩, hbin⟩, child, hchild, rfl⟩, rfl⟩

theorem shownIn_group {c : GroupId} {x : Node} : shownIn db expanded (.group c) = some x ↔
    some c ≠ recycleBin db ∧ ∃ id, db.parentOf c = some id ∧ Open db expanded id ∧ x = .group id := by
  rw [shownIn]
  by_cases hbin : some c = recycleBin db
  · rw [if_pos hbin]
    exact iff_of_false (Option.some_ne_none x).symm fun h => h.1 hbin
  · rw [if_neg hbin, Option.map_eq_some_iff]
    constructor
    · rintro ⟨id, hid, rfl⟩
      obtain ⟨hparent, hopen⟩ := Option.filter_eq_some_iff.1 hid
      exact ⟨hbin, id, hparent, of_decide_eq_true hopen, rfl⟩
    · rintro ⟨-, id, hparent, hopen, rfl⟩
      exact ⟨id, Option.filter_eq_some_iff.2 ⟨hparent, decide_eq_true hopen⟩, rfl⟩

theorem shownIn_entry {e : EntryId} {x : Node} : shownIn db expanded (.entry e) = some x ↔
    ∃ id, db.homeOf e = some id ∧ Open db expanded id ∧ x = .group id := by
  rw [shownIn, Option.map_eq_some_iff]
  constructor
  · rintro ⟨id, hid, rfl⟩
    obtain ⟨hhome, hopen⟩ := Option.filter_eq_some_iff.1 hid
    exact ⟨id, hhome, of_decide_eq_true hopen, rfl⟩
  · rintro ⟨id, hhome, hopen, rfl⟩
    exact ⟨id, Option.filter_eq_some_iff.2 ⟨hhome, decide_eq_true hopen⟩, rfl⟩

/-- Nothing is shown in an entry. -/
theorem shownIn_ne_entry (y : Node) (e : EntryId) : shownIn db expanded y ≠ some (.entry e) := by
  intro h
  cases y with
  | group c =>
    obtain ⟨-, id, -, -, heq⟩ := shownIn_group.1 h
    cases heq
  | entry c =>
    obtain ⟨id, -, -, heq⟩ := shownIn_entry.1 h
    cases heq

theorem mem_shownChildren_group (hl : Linked db) {id : GroupId} {g : Group} (hg : db.group id = some g)
    (hopen : Open db state.expanded id) (y : Node) :
    y ∈ shownChildren lowercase db state recents (.group id) ↔ shownIn db state.expanded y = some (.group id) := by
  rw [shownChildren, if_pos hopen, hg, Option.elim_some, List.mem_append, List.mem_map, List.mem_map]
  cases y with
  | group c =>
    rw [shownIn_group]
    constructor
    · rintro (⟨c', hc, heq⟩ | ⟨e, -, heq⟩)
      · cases heq
        obtain ⟨hbin, hparent⟩ := (mem_childGroups hl hg).1 hc
        exact ⟨hbin, id, hparent, hopen, rfl⟩
      · cases heq
    · rintro ⟨hbin, id', hparent, -, heq⟩
      cases heq
      exact .inl ⟨c, (mem_childGroups hl hg).2 ⟨hbin, hparent⟩, rfl⟩
  | entry e =>
    rw [shownIn_entry]
    constructor
    · rintro (⟨c, -, heq⟩ | ⟨e', he, heq⟩)
      · cases heq
      · cases heq
        exact ⟨id, (mem_childEntries hl hg).1 he, hopen, rfl⟩
    · rintro ⟨id', hhome, -, heq⟩
      cases heq
      exact .inr ⟨e, (mem_childEntries hl hg).2 hhome, rfl⟩

/-- The nodes that are shown in a node are those whose place it is. -/
theorem mem_shownChildren (hl : Linked db) (x y : Node) :
    y ∈ shownChildren lowercase db state recents x ↔ shownIn db state.expanded y = some x := by
  cases x with
  | entry e => exact iff_of_false List.not_mem_nil (shownIn_ne_entry y e)
  | group id =>
    by_cases hopen : Open db state.expanded id
    · cases hg : db.group id with
      | some g => exact mem_shownChildren_group hl hg hopen y
      | none =>
        rw [shownChildren, if_pos hopen, hg]
        have hmem : id ∉ db.groups := fun hin => by
          obtain ⟨g, hg'⟩ := (mem_groups db).1 hin
          exact Option.some_ne_none g (hg'.symm.trans hg)
        refine iff_of_false List.not_mem_nil fun h => hmem ?_
        cases y with
        | group c =>
          obtain ⟨-, id', hparent, -, heq⟩ := shownIn_group.1 h
          cases heq
          exact hl.parent_mem hparent
        | entry e =>
          obtain ⟨id', hhome, -, heq⟩ := shownIn_entry.1 h
          cases heq
          obtain ⟨e', he, rfl⟩ := homeOf_eq_some.1 hhome
          exact hl.home he
    · rw [shownChildren, if_neg hopen]
      refine iff_of_false List.not_mem_nil fun h => hopen ?_
      cases y with
      | group c =>
        obtain ⟨-, id', -, hopen', heq⟩ := shownIn_group.1 h
        cases heq
        exact hopen'
      | entry e =>
        obtain ⟨id', -, hopen', heq⟩ := shownIn_entry.1 h
        cases heq
        exact hopen'

/-- The rows of an open group are its outline. -/
theorem walk_eq (hl : Linked db) {n : Nat} {id : GroupId} (hopen : Open db state.expanded id) (depth : Nat) :
    walk lowercase db state recents n id depth =
      (outline (shownChildren lowercase db state recents) n (.group id) depth).map (treeRowOf db state) := by
  induction n generalizing id depth with
  | zero => rfl
  | succ n ih =>
    rw [walk, outline, shownChildren, if_pos hopen]
    cases hg : db.group id with
    | none => rfl
    | some g =>
      dsimp only
      rw [Option.elim_some, List.flatMap_append, List.map_append, List.flatMap_map, List.flatMap_map, List.map_flatMap,
        List.map_flatMap, List.map_eq_flatMap]
      refine congrArg₂ (· ++ ·) (List.flatMap_congr fun c hc => ?_) (List.flatMap_congr fun e _ => ?_)
      · -- a group is open if it is expanded, for it is not the root
        have hroot : c ≠ db.root := by
          rintro rfl
          cases hl.root_parent.symm.trans ((mem_childGroups hl hg).1 hc).2
        rw [List.map_cons]
        by_cases hin : c ∈ state.expanded
        · rw [if_pos hin, ih (.inr hin)]
          rfl
        · rw [if_neg hin]
          cases n with
          | zero => rfl
          | succ n =>
            have hclosed : ¬ Open db state.expanded c := not_or.2 ⟨hroot, hin⟩
            rw [outline, shownChildren, if_neg hclosed]
            rfl
      · cases n <;> rfl

/-! ## Which rows there are -/

theorem childGroups_nodup (g : Group) : (childGroups lowercase db g).Nodup := by
  have hids : ((((Enumeration.sorted.list g.groups).filter fun id => some id ≠ recycleBin db).filterMap fun id =>
      (db.group id).map fun child => (lowercase child.name, id)).map Prod.snd).Nodup := by
    rw [List.map_filterMap]
    refine ((Enumeration.nodup_list _ _).filter _).filterMap fun a a' b hb hb' => ?_
    simp only [Option.mem_def, Option.map_eq_some_iff] at hb hb'
    obtain ⟨_, ⟨_, -, rfl⟩, rfl⟩ := hb
    obtain ⟨_, ⟨_, -, rfl⟩, heq⟩ := hb'
    exact heq.symm
  exact ((List.perm_insertionSort _ _).map Prod.snd).nodup_iff.2 hids

theorem shownChildren_nodup (x : Node) : (shownChildren lowercase db state recents x).Nodup := by
  cases x with
  | entry e => exact List.nodup_nil
  | group id =>
    rw [shownChildren]
    split
    · cases db.group id with
      | none => exact List.nodup_nil
      | some g =>
        have hentries : (childEntries lowercase db state recents g).Nodup :=
          (childEntries_perm g).nodup_iff.2 (Enumeration.nodup_list _ _)
        refine ((childGroups_nodup g).map fun _ _ => Node.group.inj).append
          (hentries.map fun _ _ => Node.entry.inj) fun x hx hx' => ?_
        obtain ⟨c, -, rfl⟩ := List.mem_map.1 hx
        obtain ⟨e, -, heq⟩ := List.mem_map.1 hx'
        cases heq
    · exact List.nodup_nil

theorem shownIn_root (hl : Linked db) : shownIn db expanded (.group db.root) = none := by
  cases h : shownIn db expanded (.group db.root) with
  | none => rfl
  | some x =>
    obtain ⟨-, id, hparent, -⟩ := shownIn_group.1 h
    cases hl.root_parent.symm.trans hparent

/-- A group is shown as deep as it is. -/
theorem depth_of_shown {d : Nat} {x : Node} (h : Depth (shownIn db expanded) (.group db.root) d x) :
    ∀ id, x = .group id → Depth db.parentOf db.root d id := by
  induction h with
  | root =>
    rintro _ ⟨⟩
    exact .root
  | child hp _ ih =>
    rintro id rfl
    obtain ⟨-, p, hparent, -, rfl⟩ := shownIn_group.1 hp
    exact .child hparent (ih p rfl)

/-- No row is deeper than there are groups. -/
theorem shown_lt_card (hl : Linked db) {d : Nat} {x : Node}
    (h : Depth (shownIn db state.expanded) (.group db.root) (d + 1) x) : d < db.groups.keys.card := by
  cases h with
  | @child _ _ y hp hd =>
    cases y with
    | entry e => exact absurd hp (shownIn_ne_entry x e)
    | group id => exact depth_lt_card hl (depth_of_shown hd id rfl)

/-- The rows with what they stand for. -/
def buildNodes (lowercase : String → String) (db : Database) (state : TreeState) (recents : Recents) : List (Node × Nat) :=
  outline (shownChildren lowercase db state recents) db.groups.keys.card (.group db.root) 0

theorem buildRows_eq (hl : Linked db) :
    buildRows lowercase db state recents = (buildNodes lowercase db state recents).map (treeRowOf db state) :=
  walk_eq hl (.inl rfl) 0

theorem mem_buildNodes (hl : Linked db) {d : Nat} {x : Node} : (x, d) ∈ buildNodes lowercase db state recents ↔
    Depth (shownIn db state.expanded) (.group db.root) (d + 1) x := by
  unfold buildNodes
  rw [mem_outline fun x y => mem_shownChildren hl x y]
  constructor
  · rintro ⟨m, -, rfl, h⟩
    rwa [Nat.zero_add]
  · exact fun h => ⟨d, shown_lt_card hl h, (Nat.zero_add d).symm, h⟩

theorem buildNodes_nodup (hl : Linked db) : ((buildNodes lowercase db state recents).map Prod.fst).Nodup := by
  have hnodup : ∀ x, (shownChildren lowercase db state recents x).Nodup := shownChildren_nodup
  have hwalk := nodup_preorder (n := db.groups.keys.card + 1) (fun x y => (mem_shownChildren hl x y).1) hnodup
    (shownIn_root hl) .self
  rw [← map_fst_outline _ 0] at hwalk
  exact (List.nodup_cons.1 hwalk).2

/-- The rows are those of the nodes below the root that are in open groups all the way down, each as deep as it is shown,
and no node has two. -/
theorem buildRows_exact (lowercase : String → String) (recents : Recents) (hl : Linked db) :
    (∀ row, row ∈ buildRows lowercase db state recents ↔
      ∃ x d, Depth (shownIn db state.expanded) (.group db.root) (d + 1) x ∧ row = treeRowOf db state (x, d)) ∧
    ((buildRows lowercase db state recents).map fun row => (row.uuid, row.isGroup)).Nodup := by
  rw [buildRows_eq hl]
  refine ⟨fun row => ?_, ?_⟩
  · rw [List.mem_map]
    constructor
    · rintro ⟨⟨x, d⟩, hmem, rfl⟩
      exact ⟨x, d, (mem_buildNodes hl).1 hmem, rfl⟩
    · rintro ⟨x, d, hd, rfl⟩
      exact ⟨(x, d), (mem_buildNodes hl).2 hd, rfl⟩
  · have hname : (fun row : TreeRow => (row.uuid, row.isGroup)) ∘ treeRowOf db state = Node.name ∘ Prod.fst := by
      funext ⟨x, d⟩
      cases x <;> rfl
    rw [List.map_map, hname, ← List.map_map]
    exact (buildNodes_nodup hl).map Node.name_injective

/-! ## A move to the parent -/

theorem selectedRow_eq_some {t : TreeState} {rows : List TreeRow} {i : Nat} {r : TreeRow}
    (h : t.selectedRow rows = some (i, r)) : rows[i]? = some r ∧ t.selected = some r.uuid := by
  obtain ⟨j, hj, hr⟩ := Option.bind_eq_some_iff.1 h
  obtain ⟨r', hr', heq⟩ := Option.map_eq_some_iff.1 hr
  obtain ⟨rfl, rfl⟩ := Prod.mk.inj heq
  obtain ⟨uuid, hselected, hfind⟩ := Option.bind_eq_some_iff.1 hj
  obtain ⟨hlt, hp, -⟩ := List.findIdx?_eq_some_iff_getElem.1 hfind
  rw [List.getElem?_eq_getElem hlt, Option.some.injEq] at hr'
  subst hr'
  exact ⟨List.getElem?_eq_getElem hlt, hselected.trans (congrArg some (of_decide_eq_true hp).symm)⟩

@[simp] theorem treeRowOf_depth (x : Node × Nat) : (treeRowOf db state x).depth = x.2 := by
  obtain ⟨x, d⟩ := x
  cases x <;> rfl

@[simp] theorem treeRowOf_uuid (x : Node × Nat) : (treeRowOf db state x).uuid = x.1.uuid := by
  obtain ⟨x, d⟩ := x
  cases x <;> rfl

/-- What a row stands for is shown in the last row above that is less deep, or in the root if the row is not deep at
all. -/
theorem parentAbove_buildRows (hl : Linked db) {i : Nat} {r : TreeRow}
    (hr : (buildRows lowercase db state recents)[i]? = some r) :
    ∃ x p, r = treeRowOf db state (x, r.depth) ∧ shownIn db state.expanded x = some (.group p) ∧
      if r.depth = 0 then p = db.root
      else (((buildRows lowercase db state recents).take i).reverse.find? fun above => above.depth < r.depth) =
        some (treeRowOf db state (.group p, r.depth - 1)) := by
  rw [buildRows_eq hl] at hr ⊢
  rw [List.getElem?_map, Option.map_eq_some_iff] at hr
  obtain ⟨⟨x, k⟩, hx, rfl⟩ := hr
  obtain ⟨hi, hget⟩ := List.getElem?_eq_some_iff.1 hx
  have hsplit : buildNodes lowercase db state recents = (buildNodes lowercase db state recents).take i ++
      (x, k) :: (buildNodes lowercase db state recents).drop (i + 1) := by
    rw [← hget, ← List.drop_eq_getElem_cons hi, List.take_append_drop]
  rw [treeRowOf_depth, ← List.map_take, ← List.map_reverse, List.find?_map]
  refine (parentAbove_outline hsplit).elim ?_ ?_
  · rintro ⟨rfl, hmem, -⟩
    exact ⟨x, db.root, rfl, (mem_shownChildren hl _ _).1 hmem, rfl⟩
  · rintro ⟨hk, y, hy, hmem⟩
    have hin := (mem_shownChildren hl _ _).1 hmem
    cases y with
    | entry e => exact absurd hin (shownIn_ne_entry x e)
    | group p =>
      refine ⟨x, p, rfl, hin, ?_⟩
      rw [if_neg hk.ne', show (fun above : TreeRow => decide (above.depth < k)) ∘ treeRowOf db state =
        fun row => decide (row.2 < k) from funext fun row => by rw [Function.comp_apply, treeRowOf_depth], hy]
      rfl

/-- On a row that is no expanded group, `h` selects the group that the row is shown in, and nothing else changes; in the
root it does nothing. -/
theorem collapseOrParent_parent (lowercase : String → String) (recents : Recents) (hl : Linked db) {i : Nat} {r : TreeRow}
    (hrow : state.selectedRow (buildRows lowercase db state recents) = some (i, r))
    (hclosed : ∀ c, r.kind ≠ .group true c) :
    ∃ x p, r = treeRowOf db state (x, r.depth) ∧ shownIn db state.expanded x = some (.group p) ∧
      (state.collapseOrParent (buildRows lowercase db state recents)).2 =
        if p = db.root then state else { state with selected := some p } := by
  obtain ⟨hget, -⟩ := selectedRow_eq_some hrow
  obtain ⟨x, p, hr, hin, habove⟩ := parentAbove_buildRows hl hget
  refine ⟨x, p, hr, hin, ?_⟩
  unfold TreeState.collapseOrParent
  rw [hrow]
  dsimp only
  split
  · rename_i c hkind
    exact absurd hkind (hclosed c)
  · by_cases hdepth : r.depth = 0
    · rw [if_pos hdepth] at habove ⊢
      rw [if_pos habove]
    · rw [if_neg hdepth] at habove ⊢
      have hroot : p ≠ db.root := by
        -- the root has no row
        rintro rfl
        have hmem := List.mem_of_mem_take (List.mem_reverse.1 (List.mem_of_find?_eq_some habove))
        rw [buildRows_eq hl] at hmem
        obtain ⟨⟨y, d⟩, hy, heq⟩ := List.mem_map.1 hmem
        cases y with
        | entry e => cases (congrArg TreeRow.isGroup heq : false = true)
        | group id =>
          obtain rfl : id = db.root := congrArg TreeRow.uuid heq
          cases (mem_buildNodes hl).1 hy with
          | child hp _ => cases (shownIn_root hl).symm.trans hp
      rw [if_neg hroot, habove]
      rfl

end

/-! ## A small tree -/

/-- A group with an entry. -/
def smallTree : Database where
  config := ⟨.aes 0⟩
  root := 0
  groups := Finmap.insert 1 { id := 1, parent := some 0, name := "Work", entries := {2} }
    (Finmap.singleton 0 { id := 0, parent := none, groups := {1} })
  entries := Finmap.singleton 2 { id := 2, parent := 1 }

/-- The group is expanded, and the entry selected. -/
def smallState : TreeState := { expanded := {1}, selected := some 2 }

theorem smallTree_linked : Linked smallTree := CheckedLinks.linked (by decide +kernel)

theorem smallTree_rows :
    (∀ row, row ∈ buildRows id smallTree smallState {} ↔ ∃ x d,
      Depth (shownIn smallTree smallState.expanded) (.group smallTree.root) (d + 1) x ∧
        row = treeRowOf smallTree smallState (x, d)) ∧
    ((buildRows id smallTree smallState {}).map fun row => (row.uuid, row.isGroup)).Nodup :=
  buildRows_exact id {} smallTree_linked

theorem smallTree_parent : ∃ x p, (⟨2, 1, .entry⟩ : TreeRow) = treeRowOf smallTree smallState (x, 1) ∧
    shownIn smallTree smallState.expanded x = some (.group p) ∧
    (smallState.collapseOrParent (buildRows id smallTree smallState {})).2 =
      if p = smallTree.root then smallState else { smallState with selected := some p } :=
  collapseOrParent_parent (i := 1) (r := ⟨2, 1, .entry⟩) id {} smallTree_linked (by decide +kernel) fun _ h => nomatch h

end Falach.Tui
