import Falach.Keepass.Rounds
/-!
# What a merge makes of the two databases

Group by group and entry by entry, in terms of the two databases as they were: which groups and entries are there
after a merge that returns, what each entry is, and which tombstones there are.
-/

namespace Keepass.Database

variable {env : Env} {dest source t t' : Database} {id : Uuid}

/-! ## Groups that stay and groups that go -/

/-- The group is there once the arriving groups are in. -/
def Joins (env : Env) (dest source : Database) (i : GroupId) : Prop := i ∈ dest.groups ∨ Arrives env dest source i

/-- The group is doomed, or hangs below a doomed group once the arriving groups are in. -/
def Sinks (env : Env) (dest source : Database) (i : GroupId) : Prop :=
  ∃ x, Doomed env dest source x ∧ Below (joinedParent dest source) x i

/-! ## Entries -/

/-- A tombstone keeps the source entry `id` out: the one the destination has, or the one it takes with a doomed group
of that UUID. -/
def Barred (env : Env) (dest source : Database) (id : EntryId) (s : Entry) : Prop :=
  (Doomed env dest source id ∧ KeptOut (source.deletedObjects.lookup id) s) ∨
    (¬ Doomed env dest source id ∧ KeptOut (dest.deletedObjects.lookup id) s)

/-- `e` is what the entry rounds make of the entry `id`. -/
inductive Settles (env : Env) (dest source : Database) (id : EntryId) : Entry → Prop where
  | added {s : Entry} : dest.entry id = none → source.entry id = some s → ¬ Barred env dest source id s →
      Joins env dest source s.parent → Settles env dest source id s
  | kept {d : Entry} : dest.entry id = some d → source.entry id = none → ¬ Deleted source id d →
      Settles env dest source id d
  | both {d s : Entry} {present : Bool} : dest.entry id = some d → source.entry id = some s →
      (present = true ↔ Joins env dest source s.parent) →
      Settles env dest source id (settled present (env.now .entriesInBoth id) d s)

/-- The merge copies the source's tombstone for the UUID. -/
def Buried (env : Env) (dest source : Database) (id : Uuid) : Prop :=
  Doomed env dest source id ∨ ∃ d, dest.entry id = some d ∧ source.entry id = none ∧ Deleted source id d

/-- What `t` is, if it is what a merge of `source` into `dest` returns. -/
structure Outcome (env : Env) (dest source t : Database) : Prop where
  linked : Linked t
  root : t.root = dest.root
  mem : ∀ i, i ∈ t.groups ↔ Joins env dest source i ∧ ¬ Sinks env dest source i
  entry : ∀ id e, t.entry id = some e ↔ Settles env dest source id e ∧ ¬ Sinks env dest source e.parent
  buried : ∀ id, Buried env dest source id → t.deletedObjects.lookup id = source.deletedObjects.lookup id
  unburied : ∀ id, ¬ Buried env dest source id → t.deletedObjects.lookup id = dest.deletedObjects.lookup id
  tie : ∀ id d s present, dest.entry id = some d → source.entry id = some s →
    (present = true ↔ Joins env dest source s.parent) →
    d.times.lastModification.getD (env.now .entriesInBoth id) = s.times.lastModification.getD Times.epoch →
    ¬ haveEntriesDiverged (followed present d s).toVersion s.toVersion

/-! ## The entry rounds together -/

/-- `t'` has the groups of `t`, each where it is in `t`. -/
structure SameGroups (t t' : Database) : Prop where
  linked : Linked t'
  root : t'.root = t.root
  mem : ∀ i, i ∈ t'.groups ↔ i ∈ t.groups
  parentOf : t'.parentOf = t.parentOf

theorem SameGroups.refl (hl : Linked t) : SameGroups t t := ⟨hl, rfl, fun _ => .rfl, rfl⟩

theorem SameGroups.round {u : Database} (h : SameGroups t t') (hr : Round id t' u) : SameGroups t u :=
  ⟨hr.linked, hr.root.trans h.root, fun i => (hr.mem i).trans (h.mem i), hr.parentOf.trans h.parentOf⟩

/-- What the entry rounds make of `t`. -/
structure EntriesMerged (env : Env) (source t t' : Database) : Prop extends SameGroups t t' where
  neither : ∀ id, t.entry id = none → source.entry id = none →
    t'.entry id = none ∧ t'.deletedObjects.lookup id = t.deletedObjects.lookup id
  added : ∀ id s, t.entry id = none → source.entry id = some s →
    t'.deletedObjects.lookup id = t.deletedObjects.lookup id ∧
      ((¬ KeptOut (t.deletedObjects.lookup id) s ∧ s.parent ∈ t.groups ∧ t'.entry id = some s) ∨
      ((KeptOut (t.deletedObjects.lookup id) s ∨ s.parent ∉ t.groups) ∧ t'.entry id = none))
  kept : ∀ id d, t.entry id = some d → source.entry id = none →
    (Deleted source id d ∧ t'.entry id = none ∧ t'.deletedObjects.lookup id = source.deletedObjects.lookup id) ∨
    (¬ Deleted source id d ∧ t'.entry id = some d ∧ t'.deletedObjects.lookup id = t.deletedObjects.lookup id)
  both : ∀ id d s, t.entry id = some d → source.entry id = some s →
    t'.deletedObjects.lookup id = t.deletedObjects.lookup id ∧
    t'.entry id = some (settled (decide (s.parent ∈ t.groups)) (env.now .entriesInBoth id) d s) ∧
    (d.times.lastModification.getD (env.now .entriesInBoth id) = s.times.lastModification.getD Times.epoch →
      ¬ haveEntriesDiverged (followed (decide (s.parent ∈ t.groups)) d s).toVersion s.toVersion)

/-- What a round reads and writes of the entry `id`. -/
def cell (t : Database) (id : EntryId) : Option Entry × Option (Option NaiveDateTime) :=
  (t.entry id, t.deletedObjects.lookup id)

theorem Round.cell {j : EntryId} (h : Round id t t') (hj : j ≠ id) : t'.cell j = t.cell j := by
  unfold Database.cell; rw [h.others j hj, h.tombstones j hj]

theorem notMem_of_entry_eq_none (h : t.entry id = none) : id ∉ t.entries.keys := by
  rw [Finmap.mem_keys]; exact Finmap.notMem_iff_lookup.2 h

theorem mem_of_entry_eq_some {e : Entry} (h : t.entry id = some e) : id ∈ t.entries.keys := by
  rw [Finmap.mem_keys]; exact (mem_entries t).2 ⟨e, h⟩

theorem mergeEntries_merged (hl : Linked t) (hs : Linked source) (h : mergeEntries env source t = .ok t') :
    EntriesMerged env source t t' := by
  simp only [mergeEntries, Loop.bind_ok] at h
  obtain ⟨t₁, h₁, t₂, h₂, h₃⟩ := h
  obtain ⟨g₁, others₁, each₁⟩ := Loop.foldlM_each cell (SameGroups t) ((env.ids .entriesToAdd).nodup_list _)
    (fun id _ u u' hu hstep => by
      obtain ⟨round, -⟩ := addEntryFrom_round hu.linked hs hstep
      exact ⟨hu.round round, fun j hj => round.cell hj⟩) h₁ (.refl hl)
  obtain ⟨g₂, others₂, each₂⟩ := Loop.foldlM_each cell (SameGroups t) ((env.ids .entriesToDelete).nodup_list _)
    (fun id _ u u' hu hstep => by
      obtain ⟨round, -⟩ := removeEntryFrom_round hu.linked hstep
      exact ⟨hu.round round, fun j hj => round.cell hj⟩) h₂ g₁
  obtain ⟨g₃, others₃, each₃⟩ := Loop.foldlM_each cell (SameGroups t) ((env.ids .entriesInBoth).nodup_list _)
    (fun id _ u u' hu hstep => by
      obtain ⟨round, -⟩ := mergeEntryInBoth_round hu.linked hstep
      exact ⟨hu.round round, fun j hj => round.cell hj⟩) h₃ g₂
  simp only [(env.ids _).mem_list, Finset.mem_sdiff, Finset.mem_inter] at others₁ others₂ others₃ each₁ each₂ each₃
  -- each entry is in the list of at most one of the three loops; the others leave its cell alone
  refine ⟨g₃, fun id hd hs' => ?_, fun id s hd hs' => ?_, fun id d hd hs' => ?_, fun id d s hd hs' => ?_⟩
  · have hd' := notMem_of_entry_eq_none hd
    have hs' := notMem_of_entry_eq_none hs'
    have : t'.cell id = t.cell id := (others₃ id fun h => hd' h.1).trans
      ((others₂ id fun h => hd' h.1).trans (others₁ id fun h => hs' h.1))
    simp only [cell, Prod.mk.injEq] at this
    exact ⟨this.1.trans hd, this.2⟩
  · have hd' := notMem_of_entry_eq_none hd
    obtain ⟨u, u', hu, hstep, hget, hget'⟩ := each₁ id ⟨mem_of_entry_eq_some hs', hd'⟩
    have hfinal : t'.cell id = u'.cell id :=
      ((others₃ id fun h => hd' h.1).trans (others₂ id fun h => hd' h.1)).trans hget'
    obtain ⟨-, hdel, -, s', hs'', hcases⟩ := addEntryFrom_round hu.linked hs hstep
    rw [hs', Option.some.injEq] at hs''; subst hs''
    simp only [cell, Prod.mk.injEq] at hget hfinal
    rw [hfinal.1, hfinal.2, hdel, hget.2]
    rw [hget.2, hu.mem] at hcases
    refine ⟨rfl, hcases.imp_right fun ⟨hwhy, heq⟩ => ⟨hwhy, ?_⟩⟩
    rw [heq, hget.1, hd]
  · have hs'' := notMem_of_entry_eq_none hs'
    obtain ⟨u, u', hu, hstep, hget, hget'⟩ := each₂ id ⟨mem_of_entry_eq_some hd, hs''⟩
    have hstart : u.cell id = t.cell id := hget.trans (others₁ id fun h => hs'' h.1)
    have hfinal : t'.cell id = u'.cell id := (others₃ id fun h => hs'' h.2).trans hget'
    obtain ⟨-, d', hd', hcases⟩ := removeEntryFrom_round hu.linked hstep
    simp only [cell, Prod.mk.injEq] at hstart hfinal
    rw [hstart.1, hd, Option.some.injEq] at hd'; subst hd'
    rw [hfinal.1, hfinal.2]
    refine hcases.imp_right fun ⟨hwhy, heq⟩ => ⟨hwhy, ?_, ?_⟩
    · rw [heq, hstart.1, hd]
    · rw [heq, hstart.2]
  · have hd' := mem_of_entry_eq_some hd
    have hs'' := mem_of_entry_eq_some hs'
    obtain ⟨u, u', hu, hstep, hget, hget'⟩ := each₃ id ⟨hd', hs''⟩
    have hstart : u.cell id = t.cell id := hget.trans
      ((others₂ id fun h => h.2 hs'').trans (others₁ id fun h => h.2 hd'))
    obtain ⟨-, hdel, -, d₀, s₀, hd₀, hs₀, hentry, htie⟩ := mergeEntryInBoth_round hu.linked hstep
    simp only [cell, Prod.mk.injEq] at hstart hget'
    rw [hstart.1, hd, Option.some.injEq] at hd₀; subst hd₀
    rw [hs', Option.some.injEq] at hs₀; subst hs₀
    have present : decide (s.parent ∈ u.groups) = decide (s.parent ∈ t.groups) := decide_eq_decide.2 (hu.mem _)
    rw [present] at hentry htie
    exact ⟨by rw [hget'.2, hdel, hstart.2], by rw [hget'.1, hentry], htie⟩

theorem EntriesMerged.home {e : Entry} (h : EntriesMerged env source t t') (he : t'.entry id = some e) :
    e.parent ∈ t.groups := (h.mem _).1 (h.linked.home he)

/-! ## The deletions -/

/-- A removal leaves no group that was not there. -/
theorem removeGroup_shrinks {n : Nat} {x : GroupId} (h : removeGroup env n t x = .ok t') :
    t'.root = t.root ∧ ∀ i ∈ t'.groups, i ∈ t.groups ∧ i ≠ x := by
  induction n generalizing t t' x with
  | zero => cases h
  | succ n ih =>
    simp only [removeGroup, Loop.bind_ok, expect_ok, Loop.pure_ok] at h
    obtain ⟨g, -, t₁, h₁, g₁, -, t₂, h₂, rfl⟩ := h
    have released := SameObjects.releaseGroupIcon t x g.icon
    have h₁ : t₁.root = t.root ∧ ∀ i ∈ t₁.groups, i ∈ t.groups := by
      refine Loop.foldlM_inv (fun u => u.root = t.root ∧ ∀ i ∈ u.groups, i ∈ t.groups) (fun e _ u u' hu hstep =>
        ?_) h₁ ?_
      · split at hstep
        · obtain ⟨e', -, hsame, -, -⟩ := removeEntry_ok hstep
          refine ⟨hsame.root.trans hu.1, fun i hi => hu.2 i ?_⟩
          exact mem_modifyGroup.1 (hsame.mem_groups_iff.1 hi)
        · rw [← Loop.pure_ok.1 hstep]; exact hu
      · split
        · exact ⟨released.root, fun i hi => by simpa [released.groups] using hi⟩
        · exact ⟨released.root, fun i hi => by simpa [released.groups] using hi⟩
    have h₂ : t₂.root = t.root ∧ ∀ i ∈ t₂.groups, i ∈ t.groups := by
      refine Loop.foldlM_inv (fun u => u.root = t.root ∧ ∀ i ∈ u.groups, i ∈ t.groups) (fun c _ u u' hu hstep =>
        ?_) h₂ h₁
      split at hstep
      · obtain ⟨hroot, hsub⟩ := ih hstep
        exact ⟨hroot.trans hu.1, fun i hi => hu.2 i (hsub i hi).1⟩
      · rw [← Loop.pure_ok.1 hstep]; exact hu
    refine ⟨h₂.1, fun i hi => ?_⟩
    obtain ⟨hix, hi⟩ := Finmap.mem_erase.1 hi
    exact ⟨h₂.2 i hi, hix⟩

/-- One round of the loop that removes the queued groups. -/
theorem deleteGroup_felled {toDelete rest : List GroupId} {x : GroupId} {u u' : Database} (hx : x ∈ toDelete)
    (hn : x ∉ rest) (hmem : x ∈ t.groups) (hroot : x ≠ t.root) (hul : Linked u)
    (hu : Felled {y | y ∈ toDelete ∧ y ∉ x :: rest} t u)
    (hstep : (if x ∈ u.groups then u.removeGroup env (u.groups.keys.card + 1) x else return u) = Except.ok u') :
    Linked u' ∧ Felled {y | y ∈ toDelete ∧ y ∉ rest} t u' := by
  have roots : {y | y ∈ toDelete ∧ y ∉ rest} = {y | y ∈ toDelete ∧ y ∉ x :: rest} ∪ {x} := by
    ext y
    simp only [Set.mem_ofPred_eq, Set.mem_union, Set.mem_singleton_iff, List.mem_cons, not_or]
    by_cases hyx : y = x
    · subst hyx; simp [hx, hn]
    · simp [hyx]
  rw [roots]
  split at hstep
  · obtain ⟨hl', hf⟩ := removeGroup_felled hul (fun _ hd => hd.elim) (hu.root ▸ hroot) hstep
    exact ⟨hl', hu.trans hul hf⟩
  · rw [← Loop.pure_ok.1 hstep]
    exact ⟨hul, hu.skip hmem ‹_›⟩

/-- Before the first round. -/
theorem felled_nothing (toDelete : List GroupId) (t : Database) :
    Felled {x | x ∈ toDelete ∧ x ∉ toDelete.reverse} t t := by
  have nothing : {x | x ∈ toDelete ∧ x ∉ toDelete.reverse} = ∅ :=
    Set.eq_empty_of_forall_notMem fun x hx => hx.2 (List.mem_reverse.2 hx.1)
  rw [nothing]
  exact .refl t

/-- The queued groups are felled. The root was not one of them, if it is still there at the end. -/
theorem deleteGroups_felled {toDelete : List GroupId} (hl : Linked t) (hn : toDelete.Nodup)
    (hmem : ∀ x ∈ toDelete, x ∈ t.groups) (h : deleteGroups env toDelete t = .ok t') (hroot : t'.root ∈ t'.groups) :
    Linked t' ∧ Felled {x | x ∈ toDelete} t t' := by
  unfold deleteGroups at h
  have notRoot : t.root ∉ toDelete := by
    intro hr
    obtain ⟨l₁, l₂, u, u', -, -, -, h₁, hstep, h₂⟩ :=
      Loop.foldlM_split (List.mem_reverse.2 hr) (List.nodup_reverse.2 hn) h
    -- once it is gone it stays away
    have round : ∀ {x : GroupId} {u u' : Database}, (if x ∈ u.groups then u.removeGroup env (u.groups.keys.card + 1) x
        else return u) = Except.ok u' → u'.root = u.root ∧ (∀ i ∈ u'.groups, i ∈ u.groups) ∧ x ∉ u'.groups := by
      intro x u u' hstep
      split at hstep
      · obtain ⟨hr, hsub⟩ := removeGroup_shrinks hstep
        exact ⟨hr, fun i hi => (hsub i hi).1, fun hx => (hsub x hx).2 rfl⟩
      · rw [← Loop.pure_ok.1 hstep]; exact ⟨rfl, fun _ hi => hi, ‹_›⟩
    have hu : u.root = t.root := Loop.foldlM_inv (fun v => v.root = t.root)
      (fun x _ v v' hv hv' => (round hv').1.trans hv) h₁ rfl
    have hu' : u'.root = t.root ∧ t.root ∉ u'.groups := ⟨(round hstep).1.trans hu, (round hstep).2.2⟩
    have ht' : t'.root = t.root ∧ t.root ∉ t'.groups := Loop.foldlM_inv (fun v => v.root = t.root ∧ t.root ∉ v.groups)
      (fun x _ v v' hv hv' => ⟨(round hv').1.trans hv.1, fun hx => hv.2 ((round hv').2.1 _ hx)⟩) h₂ hu'
    exact ht'.2 (ht'.1 ▸ hroot)
  have done : Linked t' ∧ Felled {x | x ∈ toDelete ∧ x ∉ []} t t' := by
    refine Loop.foldlM_inv_rest (fun rest u => Linked u ∧ Felled {x | x ∈ toDelete ∧ x ∉ rest} t u)
      (fun x rest u u' hsuf hu hstep => ?_) h ⟨hl, felled_nothing toDelete t⟩
    have hx : x ∈ toDelete := List.mem_reverse.1 (hsuf.subset List.mem_cons_self)
    have hxr : x ∉ rest := (List.nodup_cons.1 ((List.nodup_reverse.2 hn).sublist hsuf.sublist)).1
    exact deleteGroup_felled hx hxr (hmem x hx) (fun hr => notRoot (hr ▸ hx)) hu.1 hu.2 hstep
  simpa using done

/-! ## The group rounds -/

/-- What the group rounds and the queued moves keep. -/
structure GroupRound (t t' : Database) : Prop where
  linked : Linked t'
  root : t'.root = t.root
  entries : t'.entries = t.entries
  deletedObjects : t'.deletedObjects = t.deletedObjects
  attachments : t'.attachments = t.attachments
  mem : ∀ i, i ∈ t'.groups ↔ i ∈ t.groups

theorem GroupRound.refl (hl : Linked t) : GroupRound t t := ⟨hl, rfl, rfl, rfl, rfl, fun _ => .rfl⟩

theorem GroupRound.trans {u : Database} (h : GroupRound t t') (h' : GroupRound t' u) : GroupRound t u :=
  ⟨h'.linked, h'.root.trans h.root, h'.entries.trans h.entries, h'.deletedObjects.trans h.deletedObjects,
    h'.attachments.trans h.attachments, fun i => (h'.mem i).trans (h.mem i)⟩

theorem GroupRound.modifyGroup (hl : Linked t) {f : Group → Group} (hf : ∀ g, (f g).shape = g.shape) :
    GroupRound t (t.modifyGroup id f) := by
  have same := SameTree.modifyGroup t id hf
  exact ⟨same.linkedBut hl, rfl, rfl, rfl, rfl, fun _ => same.mem_groups_iff⟩

theorem GroupRound.moveGroupTo {q : GroupId} (hl : Linked t) (h : t.moveGroupTo id q = .ok (.ok t')) :
    GroupRound t t' := by
  obtain ⟨hl', hmem, -⟩ := moveGroupTo_linked hl h
  obtain ⟨_, -, -, -, rfl⟩ := moveGroupTo_ok h
  exact ⟨hl', rfl, rfl, rfl, rfl, hmem⟩

theorem orMergeError_ok {r : Except MoveGroupError Database} : orMergeError t r = .ok t' ↔ r = .ok t' := by
  cases r with
  | error e => simp [orMergeError]
  | ok db => simp [orMergeError]

theorem followGroupMove_round {d s : Group} {move : Option GroupId} (hl : Linked t)
    (h : followGroupMove source t d s id = .ok (some (t', move))) : GroupRound t t' := by
  simp only [followGroupMove, Loop.bind_ok] at h
  obtain ⟨destParent, -, sourceParent, -, h⟩ := h
  -- nothing is done in every branch but one
  have stays : ∀ {x : Except Fault (Option (Database × Option GroupId))}, x = .ok (some (t', move)) →
      x = .ok (some (t, none)) → GroupRound t t' := by
    rintro x hx hx'
    rw [hx, Except.ok.injEq, Option.some.injEq, Prod.mk.injEq] at hx'
    rw [hx'.1]; exact .refl hl
  split at h
  · split at h
    · split at h
      · split at h
        · cases h
        · split at h
          · cases h
          · obtain ⟨r, hr, h⟩ := Loop.bind_ok.1 h
            obtain ⟨t₁, ht₁, h⟩ := Loop.bind_ok.1 h
            rw [Loop.pure_ok, Option.some.injEq, Prod.mk.injEq] at h
            rw [orMergeError_ok.1 ht₁] at hr
            have moved := GroupRound.moveGroupTo hl hr
            rw [← h.1]
            exact moved.trans (.modifyGroup moved.linked fun _ => rfl)
      · exact stays h rfl
    · exact stays h rfl
  · exact stays h rfl

theorem mergeGroupInBoth_round {moves moves' : List (GroupId × GroupId)} (hl : Linked t)
    (h : mergeGroupInBoth env source (t, moves) id = .ok (t', moves')) : GroupRound t t' := by
  simp only [mergeGroupInBoth, Loop.bind_ok, expect_ok] at h
  obtain ⟨d, -, s, -, r, hr, h⟩ := h
  cases r with
  | none =>
    simp only [Loop.pure_ok, Prod.mk.injEq] at h
    rw [← h.1]; exact .refl hl
  | some r =>
    obtain ⟨t₁, move⟩ := r
    have followed := followGroupMove_round hl hr
    simp only [Loop.bind_ok, expect_ok] at h
    obtain ⟨d₁, -, h⟩ := h
    split at h
    · split at h
      · cases h
      · rw [Loop.pure_ok, Prod.mk.injEq] at h
        rw [← h.1]; exact followed
    · split at h
      · rw [Loop.pure_ok, Prod.mk.injEq] at h
        rw [← h.1]; exact followed
      · rw [Loop.pure_ok, Prod.mk.injEq] at h
        rw [← h.1]
        exact followed.trans (.modifyGroup followed.linked fun _ => rfl)

theorem runMove_round {move : GroupId × GroupId} (hl : Linked t) (h : runMove t move = .ok t') : GroupRound t t' := by
  obtain ⟨r, hr, h⟩ := Loop.bind_ok.1 h
  rw [orMergeError_ok.1 h] at hr
  exact .moveGroupTo hl hr

/-! ## Between the phases -/

/-- `u` is the destination with the arriving groups in it, and the doomed groups are queued. -/
structure Opened (env : Env) (dest source : Database) (toDelete : List GroupId) (u : Database) : Prop where
  linked : Linked u
  root : u.root = dest.root
  entries : u.entries = dest.entries
  attachments : u.attachments = dest.attachments
  joins : ∀ i, i ∈ u.groups ↔ Joins env dest source i
  parentOf : ∀ i ∈ u.groups, u.parentOf i = joinedParent dest source i
  group : ∀ i ∈ u.groups, (u.group i).map Group.bare = ((dest.group i).or (source.group i)).map Group.bare
  nodup : toDelete.Nodup
  queued : ∀ i, i ∈ toDelete ↔ Doomed env dest source i
  doomed : ∀ i, Doomed env dest source i → u.deletedObjects.lookup i = source.deletedObjects.lookup i
  spared : ∀ i, ¬ Doomed env dest source i → u.deletedObjects.lookup i = dest.deletedObjects.lookup i

theorem Grown.opened {grown queued : Database} {toDelete : List GroupId} (hg : Grown env dest source grown)
    (hq : Queued env dest source grown toDelete queued) : Opened env dest source toDelete queued := by
  have tree : SameTree grown queued := by rw [hq.rest]; exact .of_eq rfl rfl rfl
  have rest : queued = { dest with groups := grown.groups, deletedObjects := queued.deletedObjects } := by
    rw [hq.rest, hg.rest]
  have groups : ∀ i, queued.group i = grown.group i := fun i => by rw [rest]; rfl
  refine ⟨tree.linkedBut hg.linked, by rw [rest], by rw [rest], by rw [rest],
    fun i => tree.mem_groups_iff.trans (hg.mem i), fun i hi => ?_, fun i hi => ?_, hq.nodup, hq.mem, hq.doomed,
    fun i hi => ?_⟩
  · rw [tree.parentOf_eq]
    exact hg.parentOf (tree.mem_groups_iff.1 hi)
  · rw [groups]
    by_cases hdest : i ∈ dest.groups
    · obtain ⟨g, hgi⟩ := (mem_groups dest).1 hdest
      have hold := congrArg (Option.map Group.bare) (hg.old i hdest)
      rw [Option.map_map, Option.map_map, hgi] at hold
      rw [hgi, Option.some_or]
      exact hold
    · have hnew := congrArg (Option.map Group.bare)
        (hg.new i (((hg.mem i).1 (tree.mem_groups_iff.1 hi)).resolve_left hdest))
      rw [Option.map_map, Option.map_map] at hnew
      rw [show dest.group i = none from Finmap.notMem_iff_lookup.1 hdest, Option.none_or]
      exact hnew
  · rw [hq.spared i hi, hg.rest]

namespace Opened

variable {toDelete : List GroupId} {u t felled : Database} (o : Opened env dest source toDelete u)

include o in
theorem entry (id : EntryId) : u.entry id = dest.entry id := by unfold Database.entry; rw [o.entries]

include o in
theorem barred_iff (id : EntryId) (s : Entry) :
    Barred env dest source id s ↔ KeptOut (u.deletedObjects.lookup id) s := by
  unfold Barred
  by_cases hdoom : Doomed env dest source id
  · simp [hdoom, o.doomed id hdoom]
  · simp [hdoom, o.spared id hdoom]

include o in
theorem present_iff {present : Bool} {s : Entry} (hp : present = true ↔ Joins env dest source s.parent) :
    present = decide (s.parent ∈ u.groups) :=
  Bool.eq_iff_iff.2 (by rw [hp, decide_eq_true_iff, o.joins])

/-! ### Once the entries are merged -/

variable (settled : EntriesMerged env source u t)

include o settled

theorem settles (id : EntryId) (e : Entry) : t.entry id = some e ↔ Settles env dest source id e := by
  cases hd' : dest.entry id with
  | none =>
    cases hs' : source.entry id with
    | none =>
      rw [(settled.neither id ((o.entry id).trans hd') hs').1]
      refine iff_of_false (by simp) ?_
      rintro (⟨-, h, -, -⟩ | ⟨h, -, -⟩ | ⟨h, -, -⟩) <;> simp_all
    | some s =>
      obtain ⟨-, hcases⟩ := settled.added id s ((o.entry id).trans hd') hs'
      rw [o.joins, ← o.barred_iff] at hcases
      constructor
      · intro he
        rcases hcases with ⟨hb, hj, hs''⟩ | ⟨-, hnone⟩
        · rw [hs'', Option.some.injEq] at he; subst he
          exact .added hd' hs' hb hj
        · rw [hnone] at he; cases he
      · rintro (⟨-, h, hb, hj⟩ | ⟨h, -, -⟩ | ⟨h, -, -⟩)
        · rw [hs', Option.some.injEq] at h; subst h
          rcases hcases with ⟨-, -, hs''⟩ | ⟨hb' | hj', -⟩
          · exact hs''
          · exact absurd hb' hb
          · exact absurd hj hj'
        · rw [hd'] at h; cases h
        · rw [hd'] at h; cases h
  | some d =>
    cases hs' : source.entry id with
    | none =>
      have hcases := settled.kept id d ((o.entry id).trans hd') hs'
      constructor
      · intro he
        rcases hcases with ⟨-, hnone, -⟩ | ⟨hdel, hd'', -⟩
        · rw [hnone] at he; cases he
        · rw [hd'', Option.some.injEq] at he; subst he
          exact .kept hd' hs' hdel
      · rintro (⟨h, -, -, -⟩ | ⟨h, -, hdel⟩ | ⟨-, h, -⟩)
        · rw [hd'] at h; cases h
        · rw [hd', Option.some.injEq] at h; subst h
          rcases hcases with ⟨hdel', -⟩ | ⟨-, hd'', -⟩
          · exact absurd hdel' hdel
          · exact hd''
        · rw [hs'] at h; cases h
    | some s =>
      obtain ⟨-, hboth, -⟩ := settled.both id d s ((o.entry id).trans hd') hs'
      constructor
      · intro he
        rw [hboth, Option.some.injEq] at he; subst he
        exact .both hd' hs' (by rw [decide_eq_true_iff, o.joins])
      · rintro (⟨h, -, -, -⟩ | ⟨-, h, -⟩ | ⟨h, h', hp⟩)
        · rw [hd'] at h; cases h
        · rw [hs'] at h; cases h
        · rw [hd', Option.some.injEq] at h; subst h
          rw [hs', Option.some.injEq] at h'; subst h'
          rw [hboth, o.present_iff hp]

/-- A tombstone is the source's for what the merge deletes, and the destination's for the rest. -/
theorem settled_buried (hb : Buried env dest source id) :
    t.deletedObjects.lookup id = source.deletedObjects.lookup id := by
  rcases hb with hdoom | ⟨d, hd', hs', hdel⟩
  · cases hd' : dest.entry id with
    | none =>
      cases hs' : source.entry id with
      | none => rw [(settled.neither id ((o.entry id).trans hd') hs').2, o.doomed id hdoom]
      | some s => rw [(settled.added id s ((o.entry id).trans hd') hs').1, o.doomed id hdoom]
    | some d =>
      cases hs' : source.entry id with
      | none =>
        rcases settled.kept id d ((o.entry id).trans hd') hs' with ⟨-, -, h⟩ | ⟨-, -, h⟩
        · exact h
        · rw [h, o.doomed id hdoom]
      | some s => rw [(settled.both id d s ((o.entry id).trans hd') hs').1, o.doomed id hdoom]
  · rcases settled.kept id d ((o.entry id).trans hd') hs' with ⟨-, -, h⟩ | ⟨h, -⟩
    · exact h
    · exact absurd hdel h

theorem settled_unburied (hb : ¬ Buried env dest source id) :
    t.deletedObjects.lookup id = dest.deletedObjects.lookup id := by
  obtain ⟨hdoom, hdel⟩ := not_or.1 hb
  rw [← o.spared id hdoom]
  cases hd' : dest.entry id with
  | none =>
    cases hs' : source.entry id with
    | none => exact (settled.neither id ((o.entry id).trans hd') hs').2
    | some s => exact (settled.added id s ((o.entry id).trans hd') hs').1
  | some d =>
    cases hs' : source.entry id with
    | none =>
      rcases settled.kept id d ((o.entry id).trans hd') hs' with ⟨h, -, -⟩ | ⟨-, -, h⟩
      · exact absurd ⟨d, hd', hs', h⟩ hdel
      · exact h
    | some s => exact (settled.both id d s ((o.entry id).trans hd') hs').1

/-! ### Once the doomed groups are gone -/

theorem sinks_iff {i : GroupId} (hi : i ∈ u.groups) :
    (∃ x ∈ {x | x ∈ toDelete}, Below t.parentOf x i) ↔ Sinks env dest source i := by
  simp only [Set.mem_ofPred_eq, o.queued, Sinks, settled.parentOf]
  refine exists_congr fun x => and_congr_right fun _ => ?_
  constructor
  · exact fun hb => hb.mono fun z q hz => (o.parentOf z (mem_groups_of_parentOf hz)) ▸ hz
  · intro hb
    induction hb with
    | self => exact .self
    | child hp _ ih =>
      have hp := (o.parentOf _ hi).trans hp
      exact .child hp (ih ((o.linked).parent_mem hp))

variable (gone : Felled {x | x ∈ toDelete} t felled)

include gone

theorem mem_felled (i : GroupId) : i ∈ felled.groups ↔ Joins env dest source i ∧ ¬ Sinks env dest source i := by
  rw [gone.mem, settled.mem]
  constructor
  · rintro ⟨hi, hno⟩
    refine ⟨(o.joins i).1 hi, fun hx => ?_⟩
    obtain ⟨x, hx, hb⟩ := (o.sinks_iff settled hi).2 hx
    exact hno x hx hb
  · rintro ⟨hi, hno⟩
    have hi := (o.joins i).2 hi
    exact ⟨hi, fun x hx hb => hno ((o.sinks_iff settled hi).1 ⟨x, hx, hb⟩)⟩

theorem felled_entry (id : EntryId) (e : Entry) :
    felled.entry id = some e ↔ Settles env dest source id e ∧ ¬ Sinks env dest source e.parent := by
  rw [← o.settles settled]
  constructor
  · intro he
    rcases gone.gone_or_kept id with hnone | ⟨hsame, hno⟩
    · rw [hnone] at he; cases he
    · have he := hsame.symm.trans he
      refine ⟨he, fun hx => ?_⟩
      obtain ⟨x, hx, hb⟩ := (o.sinks_iff settled (settled.home he)).2 hx
      exact hno _ (homeOf_of_entry he) x hx hb
  · rintro ⟨he, hno⟩
    rw [gone.kept id fun p hp x hx hb => ?_, he]
    rw [homeOf_of_entry he, Option.some.injEq] at hp; subst hp
    exact hno ((o.sinks_iff settled (settled.home he)).1 ⟨x, hx, hb⟩)

end Opened

/-! ## The whole merge -/

/-- The states of a merge that returns. -/
structure MergeStages (env : Env) (dest source t : Database) where
  grown : Database
  queued : Database
  toDelete : List GroupId
  settled : Database
  felled : Database
  grown_eq : addMissingGroups env source dest = .ok grown
  queued_eq : ((env.ids .groupsToDelete).list (dest.groups.keys \ source.groups.keys)).foldlM (queueDeletion env source)
    (grown, []) = .ok (queued, toDelete)
  settled_eq : mergeEntries env source queued = .ok settled
  felled_eq : deleteGroups env toDelete settled = .ok felled
  root_mem : felled.root ∈ felled.groups
  regrouped_round : Linked felled → GroupRound felled t

theorem merge_stages (h : merge env dest source = .ok t) : Nonempty (MergeStages env dest source t) := by
  simp only [merge, Loop.bind_ok, expect_ok] at h
  obtain ⟨grown, hgrown, ⟨queued, toDelete⟩, hqueued, settled, hsettled, felled, hfelled, r, hr, ⟨regrouped, moves⟩,
    hregrouped, hmoves⟩ := h
  refine ⟨⟨grown, queued, toDelete, settled, felled, hgrown, hqueued, hsettled, hfelled,
    (mem_groups felled).2 ⟨r, hr⟩, fun hl => ?_⟩⟩
  have rounds : GroupRound felled regrouped := Loop.foldlM_inv (fun st => GroupRound felled st.1)
    (fun _ _ _ _ hst hstep => hst.trans (mergeGroupInBoth_round hst.linked hstep)) hregrouped (.refl hl)
  exact Loop.foldlM_inv (GroupRound felled)
    (fun _ _ _ _ hst hstep => hst.trans (runMove_round hst.linked hstep)) hmoves rounds

namespace MergeStages

variable (m : MergeStages env dest source t) (hd : Linked dest) (hs : Linked source)

include hd hs

theorem opened : Opened env dest source m.toDelete m.queued := by
  have grown := addMissingGroups_grown hd hs m.grown_eq
  exact grown.opened (queueDeletions_queued grown hd m.queued_eq)

theorem settled_merged : EntriesMerged env source m.queued m.settled :=
  mergeEntries_merged (m.opened hd hs).linked hs m.settled_eq

theorem felled_felled : Linked m.felled ∧ Felled {x | x ∈ m.toDelete} m.settled m.felled := by
  have opened := m.opened hd hs
  have settled := m.settled_merged hd hs
  refine deleteGroups_felled settled.linked opened.nodup (fun x hx => ?_) m.felled_eq m.root_mem
  rw [settled.mem, opened.joins]
  exact .inl ((opened.queued x).1 hx).mem

end MergeStages

theorem merge_outcome (hd : Linked dest) (hs : Linked source) (h : merge env dest source = .ok t) :
    Outcome env dest source t := by
  obtain ⟨m⟩ := merge_stages h
  have opened := m.opened hd hs
  have settled := m.settled_merged hd hs
  obtain ⟨hl, felled⟩ := m.felled_felled hd hs
  have final := m.regrouped_round hl
  have tombstones : ∀ id, t.deletedObjects.lookup id = m.settled.deletedObjects.lookup id := fun id => by
    rw [final.deletedObjects, felled.deletedObjects]
  refine ⟨final.linked, ?_, fun i => (final.mem i).trans (opened.mem_felled settled felled i), fun id e => ?_,
    fun id hb => (tombstones id).trans (opened.settled_buried settled hb),
    fun id hb => (tombstones id).trans (opened.settled_unburied settled hb), fun id d s present hd' hs' hp htie => ?_⟩
  · rw [final.root, felled.root, settled.root, opened.root]
  · have hfinal : t.entry id = m.felled.entry id := by rw [Database.entry, final.entries]; rfl
    rw [hfinal, opened.felled_entry settled felled]
  · rw [opened.present_iff hp]
    exact (settled.both id d s ((opened.entry id).trans hd') hs').2.2 htie

/-! ## Where entries land -/

/-- The group the merge puts the entry in, before the doomed groups go. -/
inductive Lands (env : Env) (dest source : Database) (id : EntryId) : GroupId → Prop where
  | added {s : Entry} : dest.entry id = none → source.entry id = some s → ¬ Barred env dest source id s →
      Joins env dest source s.parent → Lands env dest source id s.parent
  | kept {d : Entry} : dest.entry id = some d → source.entry id = none → ¬ Deleted source id d →
      Lands env dest source id d.parent
  | both {d s : Entry} {present : Bool} : dest.entry id = some d → source.entry id = some s →
      (present = true ↔ Joins env dest source s.parent) → Lands env dest source id (followed present d s).parent

theorem settled_place (present : Bool) (now : NaiveDateTime) (d s : Entry) :
    (settled present now d s).place = (followed present d s).place := by
  unfold settled
  dsimp only
  split
  · rfl
  · exact mergedEntry_place _ _ _ _

theorem lands_iff {p : GroupId} :
    Lands env dest source id p ↔ ∃ e, Settles env dest source id e ∧ e.parent = p := by
  constructor
  · rintro (⟨hd, hs, hb, hj⟩ | ⟨hd, hs, hn⟩ | ⟨hd, hs, hp⟩)
    · exact ⟨_, .added hd hs hb hj, rfl⟩
    · exact ⟨_, .kept hd hs hn, rfl⟩
    · exact ⟨_, .both hd hs hp, congrArg Prod.snd (settled_place _ _ _ _)⟩
  · rintro ⟨e, ⟨hd, hs, hb, hj⟩ | ⟨hd, hs, hn⟩ | ⟨hd, hs, hp⟩, rfl⟩
    · exact .added hd hs hb hj
    · exact .kept hd hs hn
    · have : Lands env dest source id _ := .both hd hs hp
      rwa [show (followed _ _ _).parent = _ from (congrArg Prod.snd (settled_place _ _ _ _)).symm] at this

/-- The entry lands in a group that stays. -/
def EntryStays (env : Env) (dest source : Database) (id : EntryId) : Prop :=
  ∃ p, Lands env dest source id p ∧ ¬ Sinks env dest source p

/-- The group is there and stays. -/
def GroupStays (env : Env) (dest source : Database) (id : GroupId) : Prop :=
  Joins env dest source id ∧ ¬ Sinks env dest source id

theorem Outcome.mem_entries (h : Outcome env dest source t) : id ∈ t.entries ↔ EntryStays env dest source id := by
  rw [Database.mem_entries]
  simp only [h.entry, EntryStays, lands_iff]
  constructor
  · rintro ⟨e, hs, hn⟩; exact ⟨e.parent, ⟨e, hs, rfl⟩, hn⟩
  · rintro ⟨_, ⟨e, hs, rfl⟩, hn⟩; exact ⟨e, hs, hn⟩

theorem Outcome.mem_deletedObjects (h : Outcome env dest source t) :
    id ∈ t.deletedObjects ↔ id ∈ dest.deletedObjects ∨ Buried env dest source id := by
  by_cases hb : Buried env dest source id
  · have : id ∈ source.deletedObjects := by
      rcases hb with ⟨-, _, deletion, _, -, hdel, -⟩ | ⟨_, -, -, deletion, hdel, -⟩
      · exact Finmap.mem_of_lookup_eq_some hdel
      · exact Finmap.mem_of_lookup_eq_some hdel
    have copied : id ∈ t.deletedObjects ↔ id ∈ source.deletedObjects := by simp only [Finmap.mem_iff, h.buried id hb]
    exact iff_of_true (copied.2 this) (.inr hb)
  · have same : id ∈ t.deletedObjects ↔ id ∈ dest.deletedObjects := by simp only [Finmap.mem_iff, h.unburied id hb]
    simp [hb, same]

end Keepass.Database
