import Falach.Lib.Loops
import Falach.Keepass.Subtrees
import Falach.Keepass.Merge
/-!
# Groups that arrive, and groups that are doomed

Which groups of the source the merge adds to the destination, and which groups of the destination it queues for
deletion. Both are settled by the two databases as they were before the merge.
-/

namespace Keepass

/-- The group without its list of subgroups, which changes when one is added. -/
def Group.unlisted (g : Group) : Group := { g with groups := ∅ }

/-- The group with nothing in it. -/
def Group.bare (g : Group) : Group := { g with groups := ∅, entries := ∅ }

namespace Database

variable {env : Env} {dest source db db' : Database} {id p : GroupId}

theorem bare_modifyGroup {i : GroupId} {f : Group → Group} (hf : ∀ g, (f g).bare = g.bare) :
    ((db.modifyGroup p f).group i).map Group.bare = (db.group i).map Group.bare := by
  rw [group_modifyGroup]
  split
  · subst_vars; rw [Option.map_map]; exact Option.map_congr fun g _ => hf g
  · rfl

/-! ## Arriving -/

/-- The source group is wanted itself, or a group below it is and has to hang somewhere. -/
inductive Arrives (env : Env) (dest source : Database) : GroupId → Prop where
  | wanted {id : GroupId} : id ∈ source.groups → id ∉ dest.groups → wantsGroup env dest source id = .ok true →
      Arrives env dest source id
  | above {id p : GroupId} : Arrives env dest source id → source.parentOf id = some p → p ∉ dest.groups →
      Arrives env dest source p

theorem Arrives.notMem (h : Arrives env dest source id) : id ∉ dest.groups := by
  cases h with
  | wanted _ hn _ => exact hn
  | above _ _ hn => exact hn

theorem Arrives.mem_source (hs : Linked source) (h : Arrives env dest source id) : id ∈ source.groups := by
  cases h with
  | wanted hm _ _ => exact hm
  | above _ hp _ => exact hs.parent_mem hp

/-- What the loop that adds groups keeps; `dest` is the destination before it. -/
structure Adding (env : Env) (dest source : Database) (toAdd : Finset GroupId) (stack : List GroupId) (t : Database) :
    Prop where
  linked : Linked t
  rest : t = { dest with groups := t.groups }
  old : ∀ i ∈ dest.groups, (t.group i).map Group.unlisted = (dest.group i).map Group.unlisted
  untouched : ∀ i, i ∉ source.groups → t.group i = dest.group i
  new : ∀ i ∈ t.groups, i ∈ dest.groups ∨
    (Arrives env dest source i ∧ (t.group i).map Group.unlisted = (source.group i).map Group.bare)
  queued : ∀ i ∈ toAdd, Arrives env dest source i
  stacked : ∀ i ∈ stack, Arrives env dest source i
  wanted : ∀ i, i ∈ source.groups → i ∉ dest.groups → wantsGroup env dest source i = .ok true →
    i ∈ toAdd ∨ i ∈ stack ∨ i ∈ t.groups

variable {toAdd : Finset GroupId} {stack : List GroupId} {t t' : Database}

theorem mem_of_map_group {α : Type} {f : Group → α} (h : (t.group id).map f = (db.group id).map f)
    (hi : id ∈ db.groups) : id ∈ t.groups := by
  obtain ⟨g, hg⟩ := (mem_groups db).1 hi
  rw [hg, Option.map_some] at h
  obtain ⟨g', hg', -⟩ := Option.map_eq_some_iff.1 h
  exact (mem_groups t).2 ⟨g', hg'⟩

theorem Adding.mem (h : Adding env dest source toAdd stack t) (hi : id ∈ dest.groups) : id ∈ t.groups :=
  mem_of_map_group (h.old id hi) hi

/-- The next wanted group goes on the stack. -/
theorem Adding.refill (h : Adding env dest source toAdd [] t) (hi : id ∈ toAdd) :
    Adding env dest source (toAdd.erase id) [id] t := by
  refine { h with
    queued := fun i hi => h.queued i (Finset.mem_of_mem_erase hi)
    stacked := fun i hi => ?_
    wanted := fun i hs hd hw => ?_ }
  · rw [List.mem_singleton.1 hi]; exact h.queued id ‹_›
  · rcases h.wanted i hs hd hw with hm | hm | hm
    · by_cases hid : i = id
      · exact .inr (.inl (by rw [hid]; exact List.mem_singleton_self id))
      · exact .inl (Finset.mem_erase.2 ⟨hid, hm⟩)
    · cases hm
    · exact .inr (.inr hm)

/-- A parent that is not there yet goes on the stack before its child. -/
theorem Adding.push (h : Adding env dest source toAdd (id :: stack) t) (hp : source.parentOf id = some p)
    (hn : p ∉ t.groups) : Adding env dest source (toAdd.erase p) (p :: id :: stack) t := by
  refine { h with
    queued := fun i hi => h.queued i (Finset.mem_of_mem_erase hi)
    stacked := fun i hi => ?_
    wanted := fun i hs hd hw => ?_ }
  · rcases List.mem_cons.1 hi with rfl | hi
    · exact .above (h.stacked id List.mem_cons_self) hp fun hd => hn (h.mem hd)
    · exact h.stacked i hi
  · rcases h.wanted i hs hd hw with hm | hm | hm
    · by_cases hip : i = p
      · exact .inr (.inl (by rw [hip]; exact List.mem_cons_self))
      · exact .inl (Finset.mem_erase.2 ⟨hip, hm⟩)
    · exact .inr (.inl (List.mem_cons_of_mem p hm))
    · exact .inr (.inr hm)

theorem group_addGroupWithId {g : Group} (h : t.addGroupWithId p id g = .ok t') (i : GroupId) :
    t'.group i = if i = id then some g
      else (t.modifyGroup p fun g => { g with groups := insert id g.groups }).group i := by
  obtain ⟨-, rfl⟩ := addGroupWithId_ok h
  exact Finmap.lookup_insert_eq id i g _

/-- The group on top of the stack is added under its parent. -/
theorem Adding.add (hs : Linked source) (h : Adding env dest source toAdd (id :: stack) t) {g : Group}
    (hg : source.group id = some g) (hgp : g.parent = some p) (hp : p ∈ t.groups)
    (ht : t.addGroupWithId p id (copyGroup g p) = .ok t') : Adding env dest source toAdd stack t' := by
  have hparent : source.parentOf id = some p := (parentOf_of_group hg).trans hgp
  have hps : p ∈ source.groups := hs.parent_mem hparent
  obtain ⟨hnew, heq⟩ := addGroupWithId_ok ht
  obtain ⟨hl, hmem, -⟩ := addGroupWithId_linked h.linked (g := copyGroup g p) (hs.group_id hg :) rfl rfl rfl hp ht
  have group := group_addGroupWithId ht
  have unlisted : ∀ i, i ≠ id → (t'.group i).map Group.unlisted = (t.group i).map Group.unlisted := by
    intro i hi
    rw [group, if_neg hi, group_modifyGroup]
    split
    · subst_vars; rw [Option.map_map]; rfl
    · rfl
  refine ⟨hl, ?_, fun i hi => ?_, fun i hi => ?_, fun i hi => ?_, h.queued,
    fun i hi => h.stacked i (List.mem_cons_of_mem id hi), fun i hs hd hw => ?_⟩
  · rw [heq]
    conv_lhs => rw [h.rest]
  · have hid : i ≠ id := by rintro rfl; exact hnew (h.mem hi)
    exact (unlisted i hid).trans (h.old i hi)
  · have hid : i ≠ id := by rintro rfl; exact hi ((mem_groups source).2 ⟨g, hg⟩)
    have hip : i ≠ p := by rintro rfl; exact hi hps
    rw [group, if_neg hid, group_modifyGroup, if_neg hip]
    exact h.untouched i hi
  · by_cases hid : i = id
    · subst hid
      refine .inr ⟨h.stacked i List.mem_cons_self, ?_⟩
      rw [group, if_pos rfl, hg, Option.map_some, Option.map_some, copyGroup, ← hgp]
      rfl
    · rw [unlisted i hid]
      exact h.new i (((hmem i).1 hi).resolve_left hid)
  · rcases h.wanted i hs hd hw with hm | hm | hm
    · exact .inl hm
    · rcases List.mem_cons.1 hm with rfl | hm
      · exact .inr (.inr ((hmem i).2 (.inl rfl)))
      · exact .inr (.inl hm)
    · exact .inr (.inr ((hmem i).2 (.inr hm)))

/-- When the loop returns, its set and its stack are used up. -/
theorem addGroups_adding {n : Nat} (hs : Linked source) (h : Adding env dest source toAdd stack t)
    (ht : addGroups env source n toAdd stack t = .ok t') : Adding env dest source ∅ [] t' := by
  induction n generalizing toAdd stack t with
  | zero => cases ht
  | succ n ih =>
    cases stack with
    | nil =>
      simp only [addGroups] at ht
      split at ht
      · rename_i hempty
        rw [← Loop.pure_ok.1 ht]
        have : toAdd = ∅ := Finset.eq_empty_of_forall_notMem fun i hi =>
          List.not_mem_nil (hempty ▸ ((env.ids .groupsToAdd).mem_list toAdd).2 hi)
        rw [← this]; exact h
      · rename_i next rest hlist
        exact ih (h.refill (((env.ids .groupsToAdd).mem_list toAdd).1 (hlist ▸ List.mem_cons_self))) ht
    | cons id stack =>
      simp only [addGroups, Loop.bind_ok, expect_ok] at ht
      obtain ⟨g, hg, p, hp, gp, hgp, ht⟩ := ht
      split at ht
      · obtain ⟨t₁, ht₁, ht⟩ := Loop.bind_ok.1 ht
        exact ih (h.add hs hg hp ‹_› ht₁) ht
      · exact ih (h.push ((parentOf_of_group hg).trans hp) ‹_›) ht

/-- `t` is the destination with the arriving groups in it, each where it is in the source. -/
structure Grown (env : Env) (dest source t : Database) : Prop where
  linked : Linked t
  rest : t = { dest with groups := t.groups }
  mem : ∀ i, i ∈ t.groups ↔ i ∈ dest.groups ∨ Arrives env dest source i
  old : ∀ i ∈ dest.groups, (t.group i).map Group.unlisted = (dest.group i).map Group.unlisted
  new : ∀ i, Arrives env dest source i → (t.group i).map Group.unlisted = (source.group i).map Group.bare
  untouched : ∀ i, i ∉ source.groups → t.group i = dest.group i

theorem startAdding (hd : Linked dest) {wanted : List GroupId}
    (hw : ((env.ids .groupsToAdd).list (source.groups.keys \ dest.groups.keys)).filterM (wantsGroup env dest source) =
      .ok wanted) : Adding env dest source wanted.toFinset [] dest := by
  have mem_wanted : ∀ i, i ∈ wanted ↔ (i ∈ source.groups ∧ i ∉ dest.groups) ∧
    wantsGroup env dest source i = .ok true := by
    intro i
    rw [Loop.filterM_ok hw, (env.ids .groupsToAdd).mem_list, Finset.mem_sdiff, Finmap.mem_keys, Finmap.mem_keys]
  refine ⟨hd, rfl, fun _ _ => rfl, fun _ _ => rfl, fun i hi => .inl hi, fun i hi => ?_, fun _ hi => by simp at hi,
    fun i hs hd hw => ?_⟩
  · obtain ⟨⟨hs, hd⟩, hw⟩ := (mem_wanted i).1 (List.mem_toFinset.1 hi)
    exact .wanted hs hd hw
  · exact .inl (List.mem_toFinset.2 ((mem_wanted i).2 ⟨⟨hs, hd⟩, hw⟩))

theorem addMissingGroups_grown (hd : Linked dest) (hs : Linked source) (h : addMissingGroups env source dest = .ok t) :
    Grown env dest source t := by
  obtain ⟨wanted, hw, h⟩ := Loop.bind_ok.1 h
  have done := addGroups_adding hs (startAdding hd hw) h
  have arrived : ∀ i, Arrives env dest source i → i ∈ t.groups := by
    intro i hi
    induction hi with
    | wanted hs hd hw =>
      have hqueued := (done.wanted _ hs hd hw).resolve_left (Finset.notMem_empty _)
      exact hqueued.resolve_left List.not_mem_nil
    | @above i p hi hp hn ih =>
      have hnew := ((done.new i ih).resolve_left hi.notMem).2
      obtain ⟨g, hg, hgp⟩ := parentOf_eq_some.1 hp
      rw [hg, Option.map_some] at hnew
      obtain ⟨g', hg', hb⟩ := Option.map_eq_some_iff.1 hnew
      have : g'.parent = g.parent := (Group.mk.inj hb).2.1
      exact done.linked.parent_mem (parentOf_eq_some.2 ⟨g', hg', this.trans hgp⟩)
  refine ⟨done.linked, done.rest, fun i => ⟨fun hi => ?_, ?_⟩, done.old, fun i hi => ?_, done.untouched⟩
  · exact (done.new i hi).imp id And.left
  · rintro (hi | hi)
    · exact done.mem hi
    · exact arrived i hi
  · exact ((done.new i (arrived i hi)).resolve_left hi.notMem).2

/-- The parent a group has once the arriving groups are in. -/
def joinedParent (dest source : Database) (i : GroupId) : Option GroupId :=
  if i ∈ dest.groups then dest.parentOf i else source.parentOf i

theorem parentOf_eq_map {α : Type} {f : Group → α} (db : Database) {k : α → Option GroupId}
    (hk : ∀ g, k (f g) = g.parent) :
    db.parentOf id = ((db.group id).map f).bind k := by
  cases h : db.group id with
  | none => simp [parentOf, h]
  | some g => simp [parentOf, h, hk]

theorem Grown.parentOf (h : Grown env dest source t) (hi : id ∈ t.groups) :
    t.parentOf id = joinedParent dest source id := by
  unfold joinedParent
  split
  · rw [parentOf_eq_map t (f := Group.unlisted) (k := Group.parent) fun _ => rfl, h.old id ‹_›,
      ← parentOf_eq_map dest (f := Group.unlisted) fun _ => rfl]
  · rw [parentOf_eq_map t (f := Group.unlisted) (k := Group.parent) fun _ => rfl,
      h.new id (((h.mem id).1 hi).resolve_left ‹_›), 
      ← parentOf_eq_map source (f := Group.bare) fun _ => rfl]

/-! ## Doomed groups -/

/-- The time of a last change depends only on what the group lists and on the times of these. -/
theorem getLastUpdate_congr {g : Group} (hes : ∀ e ∈ g.entries, db'.entry e = db.entry e)
    (hgs : ∀ c ∈ g.groups, (db'.group c).map (·.times) = (db.group c).map (·.times)) :
    getLastUpdate env db' g = getLastUpdate env db g := by
  have entries : (((env.ids .childEntries).list g.entries).mapM fun id => expect (db'.entry id)).map
        (List.map fun e => e.times.lastUpdate) =
      (((env.ids .childEntries).list g.entries).mapM fun id => expect (db.entry id)).map
        (List.map fun e => e.times.lastUpdate) :=
    Loop.mapM_map_congr fun e he => by rw [hes e (((env.ids .childEntries).mem_list _).1 he)]
  have groups : (((env.ids .childGroups).list g.groups).mapM fun id => expect (db'.group id)).map
        (List.map fun g => g.times.lastUpdate) =
      (((env.ids .childGroups).list g.groups).mapM fun id => expect (db.group id)).map
        (List.map fun g => g.times.lastUpdate) :=
    Loop.mapM_map_congr fun c hc => by
      have hc := hgs c (((env.ids .childGroups).mem_list _).1 hc)
      cases h : db.group c <;> cases h' : db'.group c <;> simp_all [expect, Except.map]
  have split : ∀ db, getLastUpdate env db g = do
      let es ← (((env.ids .childEntries).list g.entries).mapM fun id => expect (db.entry id)).map (List.map fun e =>
        e.times.lastUpdate)
      let gs ← (((env.ids .childGroups).list g.groups).mapM fun id => expect (db.group id)).map (List.map fun g =>
        g.times.lastUpdate)
      return (es ++ gs ++ [g.times.lastUpdate]).reduceOption.max? := by
    intro db
    simp only [getLastUpdate]
    cases ((env.ids .childEntries).list g.entries).mapM fun id => expect (db.entry id) with
    | error e => rfl
    | ok es =>
      cases ((env.ids .childGroups).list g.groups).mapM fun id => expect (db.group id) with
      | error e => rfl
      | ok gs => rfl
  rw [split, split, entries, groups]

/-- The group is only in the destination, and the source has a tombstone for it that it has not outlived. -/
def Doomed (env : Env) (dest source : Database) (i : GroupId) : Prop :=
  i ∉ source.groups ∧ ∃ g deletion update, dest.group i = some g ∧ source.deletedObjects.lookup i = some deletion ∧
    getLastUpdate env dest g = .ok update ∧ outlived deletion update = false

theorem Doomed.mem {i : GroupId} (h : Doomed env dest source i) : i ∈ dest.groups := by
  obtain ⟨-, g, -, -, hg, -⟩ := h
  exact (mem_groups dest).2 ⟨g, hg⟩

/-- `t'` is `t` with the tombstones of the doomed groups, which are queued. -/
structure Queued (env : Env) (dest source t : Database) (toDelete : List GroupId) (t' : Database) : Prop where
  rest : t' = { t with deletedObjects := t'.deletedObjects }
  mem : ∀ i, i ∈ toDelete ↔ Doomed env dest source i
  nodup : toDelete.Nodup
  doomed : ∀ i, Doomed env dest source i → t'.deletedObjects.lookup i = source.deletedObjects.lookup i
  spared : ∀ i, ¬ Doomed env dest source i → t'.deletedObjects.lookup i = t.deletedObjects.lookup i

/-- What one round of the queueing loop reads of the grown destination is what the destination was before. -/
theorem Grown.getLastUpdate_eq (hg : Grown env dest source t) (hd : Linked dest) {i : GroupId} {g : Group}
    (hi : dest.group i = some g) : getLastUpdate env t g = getLastUpdate env dest g := by
  refine getLastUpdate_congr (fun e _ => ?_) fun c hc => ?_
  · rw [hg.rest]; rfl
  · have hc : c ∈ dest.groups := mem_groups_of_parentOf ((hd.child_groups hi c).1 hc).1
    have := congrArg (Option.map fun g : Group => g.times) (hg.old c hc)
    simpa [Option.map_map, Function.comp_def, Group.unlisted] using this

/-- One round queues its group exactly when it is doomed. -/
theorem queueDeletion_ok {toDelete toDelete' : List GroupId} {i : GroupId} (hg : Grown env dest source t)
    (hd : Linked dest) (hi : i ∈ dest.groups) (hs : i ∉ source.groups)
    (ht : t' = { t with deletedObjects := t'.deletedObjects })
    (h : queueDeletion env source (t', toDelete) i = .ok (db, toDelete')) :
    (Doomed env dest source i ∧ toDelete' = toDelete ++ [i] ∧ ∃ deletion,
      source.deletedObjects.lookup i = some deletion ∧
      db = { t' with deletedObjects := t'.deletedObjects.insert i deletion }) ∨
    (¬ Doomed env dest source i ∧ toDelete' = toDelete ∧ db = t') := by
  obtain ⟨g, hgi⟩ := (mem_groups dest).1 hi
  have group : t'.group i = some g := by
    have : t'.groups = t.groups := by rw [ht]
    rw [Database.group, this]
    exact (hg.untouched i hs).trans hgi
  have update : getLastUpdate env t' g = getLastUpdate env dest g := by
    rw [← hg.getLastUpdate_eq hd hgi]
    refine getLastUpdate_congr (fun e _ => ?_) fun c _ => ?_
    · rw [ht]; rfl
    · rw [ht]; rfl
  simp only [queueDeletion, group, Loop.bind_ok, expect_ok, Option.some.injEq, exists_eq_left'] at h
  cases hdel : source.deletedObjects.lookup i with
  | none =>
    simp only [hdel, Loop.pure_ok, Prod.mk.injEq] at h
    refine .inr ⟨?_, h.2.symm, h.1.symm⟩
    rintro ⟨-, _, _, _, -, hdel', -⟩
    rw [hdel] at hdel'; cases hdel'
  | some deletion =>
    simp only [hdel, Loop.bind_ok, update] at h
    obtain ⟨u, hu, h⟩ := h
    split at h
    · rename_i hout
      simp only [Loop.pure_ok, Prod.mk.injEq] at h
      refine .inr ⟨?_, h.2.symm, h.1.symm⟩
      rintro ⟨-, g', deletion', u', hgi', hdel', hu', hout'⟩
      rw [hgi, Option.some.injEq] at hgi'; subst hgi'
      rw [hdel, Option.some.injEq] at hdel'; subst hdel'
      rw [hu, Except.ok.injEq] at hu'; subst hu'
      rw [hout] at hout'; cases hout'
    · rename_i hout
      simp only [Loop.pure_ok, Prod.mk.injEq] at h
      exact .inl ⟨⟨hs, g, deletion, u, hgi, hdel, hu, by simpa using hout⟩, h.2.symm, deletion, rfl, h.1.symm⟩

theorem queueDeletions_queued {toDelete : List GroupId} (hg : Grown env dest source t) (hd : Linked dest)
    (h : ((env.ids .groupsToDelete).list (dest.groups.keys \ source.groups.keys)).foldlM (queueDeletion env source)
    (t, []) =
      .ok (t', toDelete)) : Queued env dest source t toDelete t' := by
  set all := (env.ids .groupsToDelete).list (dest.groups.keys \ source.groups.keys) with hall
  have mem_all : ∀ i, i ∈ all ↔ i ∈ dest.groups ∧ i ∉ source.groups := by
    intro i
    rw [hall, (env.ids .groupsToDelete).mem_list, Finset.mem_sdiff, Finmap.mem_keys, Finmap.mem_keys]
  -- of the groups not in `rest`, the doomed ones are queued
  let P (rest : List GroupId) (st : Database × List GroupId) : Prop :=
    st.1 = { t with deletedObjects := st.1.deletedObjects } ∧ st.2.Nodup ∧
    (∀ i, i ∈ st.2 ↔ Doomed env dest source i ∧ i ∉ rest) ∧
    (∀ i, i ∈ st.2 → st.1.deletedObjects.lookup i = source.deletedObjects.lookup i) ∧
    (∀ i, i ∉ st.2 → st.1.deletedObjects.lookup i = t.deletedObjects.lookup i)
  have done : P [] (t', toDelete) := by
    refine Loop.foldlM_inv_rest P (fun i rest st st' hsuf hP hstep => ?_) h ?_
    · obtain ⟨db₁, l₁⟩ := st
      obtain ⟨db₂, l₂⟩ := st'
      obtain ⟨hrest, hnodup, hmem, hin, hout⟩ := hP
      have hi := (mem_all i).1 (hsuf.subset List.mem_cons_self)
      have hir : i ∉ rest := (List.nodup_cons.1 (((env.ids .groupsToDelete).nodup_list _).sublist hsuf.sublist)).1
      rcases queueDeletion_ok hg hd hi.1 hi.2 hrest hstep with ⟨hdoom, rfl, deletion, hdel, rfl⟩ | ⟨hdoom, rfl, rfl⟩
      · have hil : i ∉ l₁ := fun hm => ((hmem i).1 hm).2 List.mem_cons_self
        refine ⟨?_, ?_, fun j => ?_, fun j hj => ?_, fun j hj => ?_⟩
        · have same : ∀ m, { db₁ with deletedObjects := m } = { t with deletedObjects := m } := by
            intro m; rw [show db₁ = _ from hrest]
          exact same _
        · refine List.nodup_append.2 ⟨hnodup, List.nodup_singleton i, ?_⟩
          rintro a ha b hb rfl
          exact hil (List.mem_singleton.1 hb ▸ ha)
        · change j ∈ l₁ ++ [i] ↔ _
          rw [List.mem_append, List.mem_singleton, hmem j]
          by_cases hji : j = i
          · subst hji; simp [hdoom, hir]
          · simp [hji]
        · change (db₁.deletedObjects.insert i deletion).lookup j = _
          rw [Finmap.lookup_insert_eq]
          split
          · subst_vars; exact hdel.symm
          · exact hin j ((List.mem_append.1 hj).resolve_right (by simp [*]))
        · change (db₁.deletedObjects.insert i deletion).lookup j = _
          have hj : j ∉ l₁ ∧ j ≠ i := by simpa [List.mem_append] using hj
          rw [Finmap.lookup_insert_eq, if_neg hj.2]
          exact hout j hj.1
      · refine ⟨hrest, hnodup, fun j => ?_, hin, hout⟩
        rw [hmem j, List.mem_cons, not_or]
        refine ⟨fun hj => ⟨hj.1, hj.2.2⟩, fun hj => ⟨hj.1, ?_, hj.2⟩⟩
        rintro rfl; exact hdoom hj.1
    · refine ⟨rfl, List.nodup_nil, fun i => ?_, fun i hi => (List.not_mem_nil hi).elim, fun _ _ => rfl⟩
      refine iff_of_false List.not_mem_nil ?_
      rintro ⟨hdoom, hnot⟩
      exact hnot ((mem_all i).2 ⟨hdoom.mem, hdoom.1⟩)
  obtain ⟨hrest, hnodup, hmem, hin, hout⟩ := done
  have hmem : ∀ i, i ∈ toDelete ↔ Doomed env dest source i := fun i => by rw [hmem i]; simp
  exact ⟨hrest, hmem, hnodup, fun i hi => hin i ((hmem i).2 hi), fun i hi => hout i fun hm => hi ((hmem i).1 hm)⟩

end Database

end Keepass
