import Falach.Lib.Traces
import Falach.Tui.EntryTree
import Falach.Tui.Reachable
/-!
# Moves in the entry tree

The selection is a UUID, and the rows are built again for every frame. The commands of the tree, the jumps and what a sync
brings leave the selection on a node that has a row.
-/

namespace Falach.Tui

open Keepass Database

/-! ## Paths -/

/-- `node_path`; the recursion has no bound, and the first argument is one. -/
def nodePathIn (db : Database) (target : Uuid) : Nat → GroupId → Option (List Uuid)
  | 0, _ => none
  | n + 1, id =>
    (db.group id).bind fun g =>
      if target ∈ g.entries then some [target]
      else (Enumeration.sorted.list g.groups).findSome? fun child =>
        if child = target then some [child] else (nodePathIn db target n child).map (child :: ·)

/-- `node_path` from the root; no group is deeper than there are groups. -/
def nodePath (db : Database) (target : Uuid) : Option (List Uuid) :=
  nodePathIn db target db.groups.keys.card db.root

/-- The nodes on the way from a group down to an entry or a group, which is the last of them. -/
inductive PathTo (db : Database) (target : Uuid) : GroupId → List Uuid → Prop where
  | entry {id : GroupId} : db.homeOf target = some id → PathTo db target id [target]
  | group {id : GroupId} : db.parentOf target = some id → PathTo db target id [target]
  | under {id child : GroupId} {path : List Uuid} :
      db.parentOf child = some id → PathTo db target child path → PathTo db target id (child :: path)

section

variable {db : Database} {target : Uuid} {id : GroupId} {path : List Uuid}

theorem PathTo.ne_nil (h : PathTo db target id path) : path ≠ [] := by
  cases h <;> exact List.cons_ne_nil _ _

theorem mem_groups_list (hl : Linked db) {g : Group} (hg : db.group id = some g) {c : GroupId} :
    c ∈ Enumeration.sorted.list g.groups ↔ db.parentOf c = some id := by
  rw [Enumeration.mem_list, hl.child_groups hg]
  exact and_iff_left (Set.notMem_empty c)

theorem nodePathIn_pathTo (hl : Linked db) {n : Nat} (h : nodePathIn db target n id = some path) :
    PathTo db target id path := by
  induction n generalizing id path with
  | zero => cases h
  | succ n ih =>
    obtain ⟨g, hg, h⟩ := Option.bind_eq_some_iff.1 h
    by_cases hentry : target ∈ g.entries
    · rw [if_pos hentry] at h
      cases h
      exact .entry ((hl.child_entries hg target).1 hentry)
    · rw [if_neg hentry] at h
      obtain ⟨child, hchild, h⟩ := List.exists_of_findSome?_eq_some h
      have hparent := (mem_groups_list hl hg).1 hchild
      by_cases heq : child = target
      · rw [if_pos heq] at h
        cases h
        exact heq ▸ .group (heq ▸ hparent)
      · rw [if_neg heq] at h
        obtain ⟨path, hpath, rfl⟩ := Option.map_eq_some_iff.1 h
        exact .under hparent (ih hpath)

/-- The walk finds a path if there is one that is not longer than its bound. -/
theorem nodePathIn_isSome (hl : Linked db) (h : PathTo db target id path) {n : Nat} (hn : path.length ≤ n) :
    (nodePathIn db target n id).isSome := by
  induction h generalizing n with
  | entry hhome =>
    cases n with
    | zero => exact absurd hn (Nat.not_succ_le_zero _)
    | succ n =>
      obtain ⟨e, he, rfl⟩ := homeOf_eq_some.1 hhome
      obtain ⟨g, hg⟩ := (mem_groups db).1 (hl.home he)
      rw [nodePathIn, hg, Option.bind_some, if_pos ((hl.child_entries hg target).2 hhome)]
      rfl
  | group hparent =>
    cases n with
    | zero => exact absurd hn (Nat.not_succ_le_zero _)
    | succ n =>
      obtain ⟨g, hg⟩ := (mem_groups db).1 (hl.parent_mem hparent)
      rw [nodePathIn, hg, Option.bind_some]
      split
      · rfl
      · exact List.findSome?_isSome_iff.2 ⟨target, (mem_groups_list hl hg).2 hparent, by rw [if_pos rfl]; rfl⟩
  | @under id child path hparent _ ih =>
    cases n with
    | zero => exact absurd hn (Nat.not_succ_le_zero _)
    | succ n =>
      obtain ⟨g, hg⟩ := (mem_groups db).1 (hl.parent_mem hparent)
      rw [nodePathIn, hg, Option.bind_some]
      split
      · rfl
      · refine List.findSome?_isSome_iff.2 ⟨child, (mem_groups_list hl hg).2 hparent, ?_⟩
        split
        · rfl
        · rw [Option.isSome_map]
          exact ih (Nat.le_of_succ_le_succ hn)

/-- A path is as long as what it leads to is deep. -/
theorem PathTo.length_le (hl : Linked db) (h : PathTo db target id path) {d : Nat}
    (hd : Depth db.parentOf db.root d id) : d + path.length ≤ db.groups.keys.card := by
  induction h generalizing d with
  | entry _ => exact depth_lt_card hl hd
  | group _ => exact depth_lt_card hl hd
  | under hparent _ ih =>
    have hle := ih (.child hparent hd)
    rw [List.length_cons]
    omega

theorem PathTo.from (hid : Below db.parentOf db.root id) (h : PathTo db target id path) :
    ∃ path, PathTo db target db.root path := by
  induction hid generalizing path with
  | self => exact ⟨path, h⟩
  | child hparent _ ih => exact ih (.under hparent h)

theorem PathTo.ends (h : PathTo db target id path) : target ∈ db.entries ∨ ∃ p, db.parentOf target = some p := by
  induction h with
  | entry hhome =>
    obtain ⟨e, he, -⟩ := homeOf_eq_some.1 hhome
    exact .inl ((mem_entries db).2 ⟨e, he⟩)
  | group hparent => exact .inr ⟨_, hparent⟩
  | under _ _ ih => exact ih

/-- A path leads to an entry, or to a group that is not the root. -/
theorem PathTo.exists_iff (hl : Linked db) : (∃ path, PathTo db target db.root path) ↔
    target ∈ db.entries ∨ target ∈ db.groups ∧ target ≠ db.root := by
  constructor
  · rintro ⟨path, h⟩
    refine h.ends.imp id fun ⟨p, hparent⟩ => ⟨mem_groups_of_parentOf hparent, ?_⟩
    rintro rfl
    cases hl.root_parent.symm.trans hparent
  · rintro (hentry | ⟨hgroup, hroot⟩)
    · obtain ⟨e, he⟩ := (mem_entries db).1 hentry
      exact PathTo.from (hl.rooted (hl.home he)) (.entry (homeOf_of_entry he))
    · obtain ⟨p, hparent⟩ := hl.parent_some hgroup hroot
      exact PathTo.from (hl.rooted (hl.parent_mem hparent)) (.group hparent)

/-- The path that is found is one of links down to the node, and one is found for every entry and every group but the
root. -/
theorem nodePath_exact (hl : Linked db) (target : Uuid) :
    (∀ path, nodePath db target = some path → PathTo db target db.root path) ∧
      ((nodePath db target).isSome ↔ target ∈ db.entries ∨ target ∈ db.groups ∧ target ≠ db.root) := by
  refine ⟨fun path => nodePathIn_pathTo hl, ?_⟩
  rw [← PathTo.exists_iff hl]
  constructor
  · intro h
    obtain ⟨path, hpath⟩ := Option.isSome_iff_exists.1 h
    exact ⟨path, nodePathIn_pathTo hl hpath⟩
  · rintro ⟨path, hpath⟩
    have hle := hpath.length_le hl .root
    rw [Nat.zero_add] at hle
    exact nodePathIn_isSome hl hpath hle

/-! ## Nodes with a row -/

/-- Whether a node with this UUID has a row. -/
def Shown (db : Database) (expanded : Finset Uuid) (uuid : Uuid) : Prop :=
  ∃ x d, Depth (shownIn db expanded) (.group db.root) (d + 1) x ∧ x.uuid = uuid

variable {lowercase : String → String} {recents : Recents} {t : TreeState} {expanded expanded' : Finset Uuid} {uuid : Uuid}

theorem shown_iff (hl : Linked db) :
    Shown db t.expanded uuid ↔ ∃ row ∈ buildRows lowercase db t recents, row.uuid = uuid := by
  rw [buildRows_eq hl]
  constructor
  · rintro ⟨x, d, hd, rfl⟩
    exact ⟨_, List.mem_map_of_mem ((mem_buildNodes hl).2 hd), treeRowOf_uuid _⟩
  · rintro ⟨row, hrow, rfl⟩
    obtain ⟨⟨x, d⟩, hx, rfl⟩ := List.mem_map.1 hrow
    exact ⟨x, d, (mem_buildNodes hl).1 hx, (treeRowOf_uuid (x, d)).symm⟩

/-- With more groups expanded, what is shown stays where it is. -/
theorem shownIn_mono (h : expanded ⊆ expanded') {x y : Node} (hx : shownIn db expanded y = some x) :
    shownIn db expanded' y = some x := by
  have wider : ∀ id, Open db expanded id → Open db expanded' id := fun id => Or.imp_right fun hid => h hid
  cases y with
  | group c =>
    obtain ⟨hbin, id, hparent, hopen, rfl⟩ := shownIn_group.1 hx
    exact shownIn_group.2 ⟨hbin, id, hparent, wider id hopen, rfl⟩
  | entry e =>
    obtain ⟨id, hhome, hopen, rfl⟩ := shownIn_entry.1 hx
    exact shownIn_entry.2 ⟨id, hhome, wider id hopen, rfl⟩

theorem Shown.mono (h : Shown db expanded uuid) (hsub : expanded ⊆ expanded') : Shown db expanded' uuid := by
  obtain ⟨x, d, hd, hx⟩ := h
  exact ⟨x, d, hd.mono fun _ _ => shownIn_mono hsub, hx⟩

/-- A group that is collapsed hides what is in it and no more. -/
theorem shownIn_erase {c : GroupId} {x y : Node} (hx : shownIn db expanded y = some x) (hne : x ≠ .group c) :
    shownIn db (expanded.erase c) y = some x := by
  have stays : ∀ id, x = .group id → Open db expanded id → Open db (expanded.erase c) id := fun id hid =>
    Or.imp_right fun hin => Finset.mem_erase.2 ⟨fun heq => hne (hid.trans (congrArg Node.group heq)), hin⟩
  cases y with
  | group c =>
    obtain ⟨hbin, id, hparent, hopen, rfl⟩ := shownIn_group.1 hx
    exact shownIn_group.2 ⟨hbin, id, hparent, stays id rfl hopen, rfl⟩
  | entry e =>
    obtain ⟨id, hhome, hopen, rfl⟩ := shownIn_entry.1 hx
    exact shownIn_entry.2 ⟨id, hhome, stays id rfl hopen, rfl⟩

/-- A group that is collapsed keeps its own row. -/
theorem shown_erase (hl : Linked db) {c : GroupId} {d : Nat}
    (h : Depth (shownIn db expanded) (.group db.root) (d + 1) (.group c)) : Shown db (expanded.erase c) c :=
  ⟨.group c, d, h.cut (shownIn_root hl) .self fun _ _ => shownIn_erase, rfl⟩

/-- With all groups on the way expanded, a node outside the recycle bin has a row. -/
theorem PathTo.shown (h : PathTo db target id path) (hsub : ∀ c ∈ path.dropLast, c ∈ expanded)
    (hbin : ∀ bin, recycleBin db = some bin → bin ∉ path) (hopen : Open db expanded id) {d : Nat}
    (hd : Depth (shownIn db expanded) (.group db.root) d (.group id)) : Shown db expanded target := by
  induction h generalizing d with
  | @entry id hhome => exact ⟨.entry target, d, .child (shownIn_entry.2 ⟨id, hhome, hopen, rfl⟩) hd, rfl⟩
  | @group id hparent =>
    refine ⟨.group target, d, .child (shownIn_group.2 ⟨fun hin => ?_, id, hparent, hopen, rfl⟩) hd, rfl⟩
    exact hbin target hin.symm List.mem_cons_self
  | @under id child path hparent hpath ih =>
    rw [List.dropLast_cons_of_ne_nil hpath.ne_nil] at hsub
    have hchild : shownIn db expanded (.group child) = some (.group id) :=
      shownIn_group.2 ⟨fun hin => hbin child hin.symm List.mem_cons_self, id, hparent, hopen, rfl⟩
    exact ih (fun c hc => hsub c (List.mem_cons_of_mem _ hc)) (fun bin hin hmem => hbin bin hin (List.mem_cons_of_mem _ hmem))
      (.inr (hsub child List.mem_cons_self)) (.child hchild hd)

/-! ## One move -/

/-- If anything is shown, the selected node is. -/
def Settled (db : Database) (t : TreeState) : Prop :=
  (∃ uuid, Shown db t.expanded uuid) → ∃ uuid, t.selected = some uuid ∧ Shown db t.expanded uuid

theorem settled_iff (hl : Linked db) : Settled db t ↔ (buildRows lowercase db t recents ≠ [] →
    ∃ row ∈ buildRows lowercase db t recents, t.selected = some row.uuid) := by
  have hany : (∃ uuid, Shown db t.expanded uuid) ↔ buildRows lowercase db t recents ≠ [] := by
    constructor
    · rintro ⟨uuid, h⟩
      obtain ⟨row, hrow, -⟩ := (shown_iff hl).1 h
      exact List.ne_nil_of_mem hrow
    · intro h
      obtain ⟨row, hrow⟩ := List.exists_mem_of_ne_nil _ h
      exact ⟨row.uuid, (shown_iff hl).2 ⟨row, hrow, rfl⟩⟩
  have hselected : (∃ uuid, t.selected = some uuid ∧ Shown db t.expanded uuid) ↔
      ∃ row ∈ buildRows lowercase db t recents, t.selected = some row.uuid := by
    constructor
    · rintro ⟨uuid, hsel, h⟩
      obtain ⟨row, hrow, rfl⟩ := (shown_iff hl).1 h
      exact ⟨row, hrow, hsel⟩
    · rintro ⟨row, hrow, hsel⟩
      exact ⟨row.uuid, hsel, (shown_iff hl).2 ⟨row, hrow, rfl⟩⟩
  rw [Settled, hany, hselected]

/-- A move to some row, if there is one. -/
theorem settled_setSelected (hl : Linked db) {row : Option TreeRow}
    (hrow : ∀ r, row = some r → r ∈ buildRows lowercase db t recents)
    (hsome : row = none → buildRows lowercase db t recents = []) : Settled db (t.setSelected row).2 := by
  rintro ⟨uuid, h⟩
  cases row with
  | none =>
    obtain ⟨r, hr, -⟩ := (shown_iff (t := t) hl).1 h
    rw [hsome rfl] at hr
    cases hr
  | some r => exact ⟨r.uuid, rfl, (shown_iff (t := t) hl).2 ⟨r, hrow r rfl, rfl⟩⟩

theorem settled_at (hl : Linked db) {i : Nat} (hi : i ≤ (buildRows lowercase db t recents).length - 1) :
    Settled db (t.setSelected (buildRows lowercase db t recents)[i]?).2 := by
  refine settled_setSelected hl (fun r hr => List.mem_of_getElem? hr) fun hnone => ?_
  have hlen := List.getElem?_eq_none_iff.1 hnone
  exact List.eq_nil_of_length_eq_zero (by omega)

theorem settled_moveNext (hl : Linked db) : Settled db (t.moveNext (buildRows lowercase db t recents)).2 :=
  settled_at hl (Nat.min_le_right _ _)

theorem settled_movePrev (hl : Linked db) : Settled db (t.movePrev (buildRows lowercase db t recents)).2 := by
  refine settled_at hl ?_
  cases h : t.selectedIndex (buildRows lowercase db t recents) with
  | none => exact Nat.zero_le _
  | some i =>
    obtain ⟨uuid, -, hfind⟩ := Option.bind_eq_some_iff.1 h
    obtain ⟨hlt, -⟩ := List.findIdx?_eq_some_iff_getElem.1 hfind
    rw [Option.getD_some]
    omega

theorem settled_selectFirst (hl : Linked db) : Settled db (t.selectFirst (buildRows lowercase db t recents)) := by
  change Settled db (t.setSelected (buildRows lowercase db t recents).head?).2
  exact settled_setSelected hl (fun r hr => List.mem_of_mem_head? hr) List.head?_eq_none_iff.1

/-- A selected group that is collapsed stays in sight. -/
theorem settled_erase (hl : Linked db) {row : TreeRow} (hrow : row ∈ buildRows lowercase db t recents)
    (hsel : t.selected = some row.uuid) (hgroup : row.isGroup = true) :
    Settled db { t with expanded := t.expanded.erase row.uuid } := by
  rw [buildRows_eq hl] at hrow
  obtain ⟨⟨x, d⟩, hx, rfl⟩ := List.mem_map.1 hrow
  cases x with
  | entry e => cases hgroup
  | group id => exact fun _ => ⟨id, hsel, shown_erase hl ((mem_buildNodes hl).1 hx)⟩

theorem settled_expand (hl : Linked db) {row : TreeRow} (hrow : row ∈ buildRows lowercase db t recents)
    (hsel : t.selected = some row.uuid) (id : GroupId) : Settled db (t.expand id) := fun _ =>
  ⟨row.uuid, hsel, ((shown_iff hl).2 ⟨row, hrow, rfl⟩).mono (Finset.subset_insert _ _)⟩

theorem settled_collapseOrParent (hl : Linked db) (h : Settled db t) :
    Settled db (t.collapseOrParent (buildRows lowercase db t recents)).2 := by
  unfold TreeState.collapseOrParent
  split
  · exact h
  · rename_i i row hrow
    obtain ⟨hget, hsel⟩ := selectedRow_eq_some hrow
    split
    · rename_i c hkind
      exact settled_erase hl (List.mem_of_getElem? hget) hsel (by rw [TreeRow.isGroup, hkind])
    · split
      · exact h
      · split
        · rename_i above habove
          have hmem := List.mem_of_mem_take (List.mem_reverse.1 (List.mem_of_find?_eq_some habove))
          exact settled_setSelected hl (fun r hr => Option.some.inj hr ▸ hmem) fun hnone => nomatch hnone
        · exact h

theorem settled_expandOrChild (hl : Linked db) (h : Settled db t) :
    Settled db (t.expandOrChild (buildRows lowercase db t recents)).2 := by
  unfold TreeState.expandOrChild
  split
  · exact h
  · rename_i i row hrow
    obtain ⟨hget, hsel⟩ := selectedRow_eq_some hrow
    split
    · exact settled_expand hl (List.mem_of_getElem? hget) hsel _
    · rename_i below _ hbelow
      split
      · exact settled_setSelected hl (fun r hr => Option.some.inj hr ▸ List.mem_of_getElem? hbelow) fun hnone => nomatch hnone
      · exact h
    · exact h

theorem settled_toggleExpand (hl : Linked db) (h : Settled db t) :
    Settled db (t.toggleExpand (buildRows lowercase db t recents)) := by
  unfold TreeState.toggleExpand
  split
  · exact h
  · rename_i i row hrow
    obtain ⟨hget, hsel⟩ := selectedRow_eq_some hrow
    split
    · rename_i hgroup
      split
      · exact settled_erase hl (List.mem_of_getElem? hget) hsel hgroup
      · exact settled_expand hl (List.mem_of_getElem? hget) hsel _
    · exact h

theorem foldl_expand (groups : List Uuid) (t : TreeState) :
    groups.foldl TreeState.expand t = { t with expanded := t.expanded ∪ groups.toFinset } := by
  induction groups generalizing t with
  | nil => simp
  | cons id groups ih =>
    rw [List.foldl_cons, ih, List.toFinset_cons, Finset.union_insert, ← Finset.insert_union]
    rfl

/-- Whether a node can be jumped to in the tree. -/
def Jumpable (db : Database) (uuid : Uuid) : Prop :=
  ∃ path, nodePath db uuid = some path ∧ ∀ bin, recycleBin db = some bin → bin ∉ path

/-- A jump opens all groups above its target. -/
theorem settled_jump (hl : Linked db) (hpath : nodePath db uuid = some path)
    (hbin : ∀ bin, recycleBin db = some bin → bin ∉ path) :
    Settled db ((path.dropLast.foldl TreeState.expand t).select uuid) := by
  rw [foldl_expand]
  refine fun _ => ⟨uuid, rfl, (nodePathIn_pathTo hl hpath).shown (fun c hc => ?_) hbin (.inl rfl) .root⟩
  exact Finset.mem_union_right _ (List.mem_toFinset.2 hc)

end

/-! ## Runs -/

/-- The calls of the application that change what the tree shows or what is selected in it, but for edits. -/
inductive TreeCall where
  | opened (v : Vault)
  | command (cmd : Command)
  | cycleSort
  | click (i : Nat)
  | jumpToEntry (uuid : Uuid)
  | jumpToHistory (uuid : Uuid)
  | synced (result : SyncResult)

/-- The frontend's own tree. -/
structure Frontend.ShowsTree {Form : Type} (fe : Frontend Form) (lowercase : String → String) : Prop where
  buildRows : fe.buildRows = Tui.buildRows lowercase
  nodePath : fe.nodePath = Tui.nodePath

namespace App

variable {Form : Type} (fe : Frontend Form) {app app' : App Form} {v : Vault}

def treeCall (app : App Form) : TreeCall → Ui (App Form)
  | .opened v => return ({ app with vault := some v } : App Form).resetView fe
  | .command cmd => app.treeCommand fe cmd
  | .cycleSort => return app.cycleSort
  | .click i => return app.mouseSelectTreeRow fe i
  | .jumpToEntry uuid => app.jumpToEntry fe uuid
  | .jumpToHistory uuid => app.jumpToHistory fe uuid
  | .synced result => return app.integrateSyncResult fe result

/-- A call with the answers that it is given. -/
def treeStep (app : App Form) (call : TreeCall × ((op : AppOp) → AppAnswer op)) : Option (App Form) :=
  ((app.treeCall fe call.1).answered call.2).toOption

/-- The vaults that are opened or come from a sync have the links of a tree, and a jump goes to a node of the tree outside
the recycle bin. -/
def MayCall (app : App Form) : TreeCall → Prop
  | .opened v => Linked v.database
  | .synced result => Linked result.vault.database
  | .jumpToEntry uuid | .jumpToHistory uuid => ∀ v, app.vault = some v → Jumpable v.database uuid
  | _ => True

/-- The invariant of the calls. -/
def TreeSettled (app : App Form) : Prop := ∀ v, app.vault = some v → Linked v.database ∧ Settled v.database app.view.tree

theorem TreeSettled.of_tree (h : app.TreeSettled) (hv : app'.vault = app.vault)
    (ht : ∀ v, app.vault = some v → Linked v.database → Settled v.database app.view.tree →
      Settled v.database app'.view.tree) : app'.TreeSettled := fun v hv' =>
  have hv := hv.symm.trans hv'
  ⟨(h v hv).1, ht v hv (h v hv).1 (h v hv).2⟩

theorem TreeSettled.same (h : app.TreeSettled) (hv : app'.vault = app.vault) (ht : app'.view.tree = app.view.tree) :
    app'.TreeSettled := h.of_tree hv fun _ _ _ hs => ht ▸ hs

variable {fe} {lowercase : String → String} {answers : (op : AppOp) → AppAnswer op}

theorem persistUiState_answered (h : app.persistUiState.answered answers = .ok app') :
    app'.vault = app.vault ∧ app'.view = app.view := by
  unfold persistUiState at h
  split at h
  · simp only [Program.answered_bind, Program.answered_request] at h
    cases h
    exact ⟨rfl, rfl⟩
  · cases h
    exact ⟨rfl, rfl⟩

theorem enterDetail_settled (h : app.TreeSettled) {uuid : Uuid}
    (hrun : (app.enterDetail uuid).answered answers = .ok app') : app'.TreeSettled := by
  obtain ⟨hv, hview⟩ := persistUiState_answered hrun
  exact h.same hv (by rw [hview]; rfl)

theorem TreeSettled.withTree (h : app.TreeSettled) (hv : app.vault = some v) {f : View → View}
    (ht : Settled v.database (f app.view).tree) : (app.withView f).TreeSettled := by
  refine h.of_tree rfl fun v' hv' _ _ => ?_
  obtain rfl := Option.some.inj (hv.symm.trans hv')
  exact ht

theorem TreeSettled.moved (h : app.TreeSettled) (hv : app.vault = some v) {move : Bool × TreeState}
    (ht : Settled v.database move.2) :
    (app.withView fun view =>
      if move.1 then { view with tree := move.2, revealPassword := false, detailScroll := 0 }
      else { view with tree := move.2 }).TreeSettled := by
  refine h.withTree hv ?_
  split <;> exact ht

theorem treeCommand_settled (hfe : fe.ShowsTree lowercase) (h : app.TreeSettled) {cmd : Command}
    (hrun : (app.treeCommand fe cmd).answered answers = .ok app') : app'.TreeSettled := by
  unfold treeCommand at hrun
  split at hrun
  · cases hrun
    exact h
  · rename_i rows hrows
    obtain ⟨v, hv, rfl⟩ := Option.map_eq_some_iff.1 hrows
    rw [hfe.buildRows] at hrun
    obtain ⟨hl, hs⟩ := h v hv
    dsimp only at hrun
    split at hrun
    · cases hrun
      exact h.moved hv (settled_moveNext hl)
    · cases hrun
      exact h.moved hv (settled_movePrev hl)
    · cases hrun
      exact h.moved hv (settled_collapseOrParent hl hs)
    · split at hrun
      · split at hrun
        · exact enterDetail_settled h hrun
        · cases hrun
          exact h
      · cases hrun
        exact h.moved hv (settled_expandOrChild hl hs)
    · split at hrun
      · split at hrun
        · exact enterDetail_settled h hrun
        · cases hrun
          exact h
      · cases hrun
        exact h.withTree hv (settled_toggleExpand hl hs)
    · cases hrun
      exact h

theorem mouseSelectTreeRow_settled (hfe : fe.ShowsTree lowercase) (h : app.TreeSettled) (i : Nat) :
    (app.mouseSelectTreeRow fe i).TreeSettled := by
  unfold mouseSelectTreeRow
  split
  · rename_i row hrow
    obtain ⟨rows, hrows, hget⟩ := Option.bind_eq_some_iff.1 hrow
    obtain ⟨v, hv, rfl⟩ := Option.map_eq_some_iff.1 hrows
    rw [hfe.buildRows] at hget
    obtain ⟨hl, -⟩ := h v hv
    have hmove : Settled v.database (app.view.tree.setSelected (some row)).2 :=
      settled_setSelected hl (fun r hr => Option.some.inj hr ▸ List.mem_of_getElem? hget) fun hnone => nomatch hnone
    exact h.withTree hv hmove
  · exact h

/-- A jump opens the groups above its target before it selects it. -/
theorem jump_settled (hfe : fe.ShowsTree lowercase) (h : app.TreeSettled) {uuid : Uuid}
    (hin : ∀ v, app.vault = some v → Jumpable v.database uuid) {f : View → View}
    (hf : ∀ view, (f view).tree = view.tree.select uuid) : ((app.expandAncestors fe uuid).withView f).TreeSettled := by
  cases hv : app.vault with
  | none =>
    intro v hv'
    rw [expandAncestors, hv] at hv'
    cases hv.symm.trans hv'
  | some v =>
    obtain ⟨path, hpath, hbin⟩ := hin v hv
    have hexpand : app.expandAncestors fe uuid =
        app.withView fun view => { view with tree := path.dropLast.foldl TreeState.expand view.tree } := by
      rw [expandAncestors, hv, Option.bind_some, hfe.nodePath, hpath]
    rw [hexpand]
    refine h.of_tree rfl fun v' hv' hl _ => ?_
    obtain rfl := Option.some.inj (hv.symm.trans hv')
    change Settled v.database (f _).tree
    rw [hf]
    exact settled_jump hl hpath hbin

theorem jumpToEntry_settled (hfe : fe.ShowsTree lowercase) (h : app.TreeSettled) {uuid : Uuid}
    (hin : ∀ v, app.vault = some v → Jumpable v.database uuid)
    (hrun : (app.jumpToEntry fe uuid).answered answers = .ok app') : app'.TreeSettled := by
  obtain ⟨hv, hview⟩ := persistUiState_answered hrun
  exact (jump_settled hfe h hin fun _ => rfl).same hv (by rw [hview])

theorem jumpToHistory_settled (hfe : fe.ShowsTree lowercase) (h : app.TreeSettled) {uuid : Uuid}
    (hin : ∀ v, app.vault = some v → Jumpable v.database uuid)
    (hrun : (app.jumpToHistory fe uuid).answered answers = .ok app') : app'.TreeSettled := by
  unfold jumpToHistory at hrun
  split at hrun
  · cases hrun
    exact h
  · split at hrun
    · cases hrun
      exact jump_settled hfe h hin fun _ => rfl
    · obtain ⟨hv, hview⟩ := persistUiState_answered hrun
      exact (jump_settled hfe h hin fun _ => rfl).same hv (by rw [hview]; rfl)

theorem selectFirst_settled (hfe : fe.ShowsTree lowercase) (hv : app.vault = some v) (hl : Linked v.database) :
    (app.withView fun view => { view with tree := view.tree.selectFirst ((app.rows fe).getD []) }).TreeSettled := by
  intro v' hv'
  obtain rfl := Option.some.inj (hv.symm.trans hv')
  refine ⟨hl, ?_⟩
  change Settled v.database (app.view.tree.selectFirst ((app.rows fe).getD []))
  rw [rows, hv, Option.map_some, Option.getD_some, hfe.buildRows]
  exact settled_selectFirst hl

theorem reclampTreeSelection_settled (hfe : fe.ShowsTree lowercase) (hv : app.vault = some v)
    (hl : Linked v.database) : (app.reclampTreeSelection fe).TreeSettled := by
  unfold reclampTreeSelection
  generalize hclamped : app.withView (fun view => { view with detailScroll := 0 }) = clamped
  have hv' : clamped.vault = some v := by rw [← hclamped]; exact hv
  have hrows : clamped.rows fe = some (buildRows lowercase v.database clamped.view.tree clamped.view.recents) := by
    rw [rows, hv', Option.map_some, hfe.buildRows]
  have hfirst := selectFirst_settled hfe hv' hl
  rw [hrows] at hfirst
  dsimp only
  rw [hrows]
  dsimp only
  split
  · rename_i hstill
    -- the selected node still has a row
    intro v'' hv''
    obtain rfl := Option.some.inj (hv'.symm.trans hv'')
    obtain ⟨uuid, hsel, hany⟩ := (Option.any_eq_true _ _).1 hstill
    obtain ⟨row, hrow, heq⟩ := List.any_eq_true.1 hany
    exact ⟨hl, fun _ => ⟨uuid, hsel, (shown_iff hl).2 ⟨row, hrow, of_decide_eq_true heq⟩⟩⟩
  · exact hfirst

theorem integrateSyncResult_settled (hfe : fe.ShowsTree lowercase) {result : SyncResult}
    (hl : Linked result.vault.database) : (app.integrateSyncResult fe result).TreeSettled := by
  have locked : ∀ app : App Form, app.lockApp.TreeSettled := fun app v hv => nomatch hv
  unfold integrateSyncResult
  generalize ({ app with registry := some result.registry } : App Form) = app
  dsimp only
  split
  · have hclamped : ((app.withVault result.vault).reclampTreeSelection fe).TreeSettled :=
      reclampTreeSelection_settled hfe rfl hl
    have hkept : (((app.withVault result.vault).reclampTreeSelection fe).retainMarks).TreeSettled :=
      hclamped.same rfl rfl
    split
    · exact locked _
    · split
      · exact locked _
      · exact hkept.same rfl rfl
      · exact hkept
      · exact hkept
  · exact locked _

/-- Each call keeps the selection on a node that is shown. -/
theorem treeStep_settled (hfe : fe.ShowsTree lowercase) {call : TreeCall × ((op : AppOp) → AppAnswer op)}
    (h : app.TreeSettled) (hmay : app.MayCall call.1) (hstep : treeStep fe app call = some app') : app'.TreeSettled := by
  obtain ⟨call, answers⟩ := call
  have hrun : (app.treeCall fe call).answered answers = .ok app' := by
    unfold treeStep at hstep
    cases hr : (app.treeCall fe call).answered answers with
    | error e =>
      rw [hr] at hstep
      cases hstep
    | ok app'' =>
      rw [hr] at hstep
      exact congrArg Except.ok (Option.some.inj hstep)
  cases call with
  | opened v =>
    cases hrun
    exact selectFirst_settled (v := v) hfe rfl hmay
  | command cmd => exact treeCommand_settled hfe h hrun
  | cycleSort =>
    cases hrun
    exact h.of_tree rfl fun _ _ _ hs => hs
  | click i =>
    cases hrun
    exact mouseSelectTreeRow_settled hfe h i
  | jumpToEntry uuid => exact jumpToEntry_settled hfe h hmay hrun
  | jumpToHistory uuid => exact jumpToHistory_settled hfe h hmay hrun
  | synced result =>
    cases hrun
    exact integrateSyncResult_settled hfe hmay

/-- After any calls, whatever they are answered, the selected node has a row if any node has. -/
theorem run_selects (hfe : fe.ShowsTree lowercase) {start : App Form} (hstart : start.vault = none)
    {calls : List (TreeCall × ((op : AppOp) → AppAnswer op))}
    (run : Trace (treeStep fe) (fun app call => app.MayCall call.1) start calls app) {rows : List TreeRow}
    (hrows : app.rows fe = some rows) (hany : rows ≠ []) : ∃ row ∈ rows, app.view.tree.selected = some row.uuid := by
  have hsettled : app.TreeSettled := run.inv (fun v hv => nomatch hstart.symm.trans hv) (treeStep_settled hfe)
  obtain ⟨v, hv, rfl⟩ := Option.map_eq_some_iff.1 hrows
  rw [hfe.buildRows] at hany ⊢
  exact (settled_iff (hsettled v hv).1).1 (hsettled v hv).2 hany

end App

/-! ## A jump in the small tree -/

/-- A frontend with the tree. -/
def treeFrontend : Frontend Unit := { smallFrontend with buildRows := buildRows id, nodePath := nodePath }

theorem treeFrontend_shows : treeFrontend.ShowsTree id := ⟨rfl, rfl⟩

theorem smallTree_path : (∀ path, nodePath smallTree 2 = some path → PathTo smallTree 2 smallTree.root path) ∧
    ((nodePath smallTree 2).isSome ↔ 2 ∈ smallTree.entries ∨ 2 ∈ smallTree.groups ∧ 2 ≠ smallTree.root) :=
  nodePath_exact smallTree_linked 2

/-- Everything fails, but for the clipboard. -/
def quietAnswers : (op : AppOp) → AppAnswer op
  | .now => (0 : Nat)
  | .draw => ⟨0, 0, fun _ => 0, .inOrder 0⟩
  | .openVault _ _ => .error .authenticationFailed
  | .saveVault _ => .error .authenticationFailed
  | .registry .ensureExists => .error .authenticationFailed
  | .registry .acquireExclusive => .error .authenticationFailed
  | .registry .readToString => .error .authenticationFailed
  | .registry (.writeAtomic _) => .error .authenticationFailed
  | .registry .unlock => ()
  | .updateUserConfig _ => none
  | .saveUiConfig _ => ()
  | .copy _ => true
  | .spawn _ _ _ _ _ => (0 : Nat)
  | .receive _ => ⟨[], true⟩

def lockedTree : App Unit := smallApp false false (.unlockPrompt "a" {} 0) none "a" smallView { config := .default }

/-- The vault is opened, and a search leads to the entry. -/
def smallCalls : List (TreeCall × ((op : AppOp) → AppAnswer op)) :=
  [] ++ [(.opened ⟨"/a", smallTree⟩, quietAnswers)] ++ [(.jumpToEntry 2, quietAnswers)]

theorem smallTree_selects : ∃ (app : App Unit) (rows : List TreeRow), app.rows treeFrontend = some rows ∧ rows.length = 2 ∧
    ∃ row ∈ rows, app.view.tree.selected = some row.uuid := by
  have hpath : Jumpable smallTree 2 := ⟨[1, 2], by decide +kernel, by decide +kernel⟩
  have run : Trace (App.treeStep treeFrontend) (fun app call => app.MayCall call.1) lockedTree smallCalls _ :=
    .step (.step .nil smallTree_linked rfl) (fun v hv => by cases hv; exact hpath) rfl
  refine ⟨_, _, rfl, ?_, App.run_selects treeFrontend_shows rfl run rfl ?_⟩
  · decide +kernel
  · decide +kernel

end Falach.Tui
