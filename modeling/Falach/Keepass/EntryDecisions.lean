import Falach.Keepass.Removals
import Falach.Keepass.Trims
import Falach.Keepass.Totality
/-!
# How far the entries get

Up to the removal of the doomed groups only two things stop a merge: an entry that is removed while one of its slots is
empty, which is a panic, and an entry that diverged without a newer modification time, which is an error.
-/

namespace Keepass.Database

variable {env : Env} {dest source db t t' u : Database} {id : Uuid} {toDelete : List GroupId}

/-! ## Conditions on the two databases -/

/-- No entry that is in the way of the merge finds one of its slots empty. -/
def Removable (env : Env) (dest source : Database) : Prop :=
  Lasts (LeavesSlot env dest source) (fun x c => ∀ e, (dest.entry x).or (source.entry x) = some e → e.UsesOnce c)
    dest.attachments

/-- The entry is in the way of the merge, and removed. -/
def Gone (env : Env) (dest source : Database) (id : EntryId) : Prop :=
  ¬ EntryStays env dest source id ∧ (id ∈ dest.entries ∨ ∃ p, Lands env dest source id p)

/-- The entry round for `id` refuses the two versions. -/
def EntryTies (env : Env) (dest source : Database) (id : EntryId) : Prop :=
  ∃ d s present, dest.entry id = some d ∧ source.entry id = some s ∧ (present = true ↔ Joins env dest source s.parent) ∧
    d.times.lastModification.getD (env.now .entriesInBoth id) = s.times.lastModification.getD Times.epoch ∧
    haveEntriesDiverged (followed present d s).toVersion s.toVersion

/-! ## Before the entries -/

theorem queueDeletion_total (source : Database) {st : Database × List GroupId} {g : Group} (hg : st.1.group id = some g)
    (hu : ∃ update, getLastUpdate env st.1 g = .ok update) :
    ∃ st', queueDeletion env source st id = .ok st' ∧ st'.1 = { st.1 with deletedObjects := st'.1.deletedObjects } := by
  obtain ⟨t, l⟩ := st
  obtain ⟨update, hu⟩ := hu
  simp only [queueDeletion, hg, hu, expect, Loop.bind_ok, Except.ok.injEq, exists_eq_left']
  cases source.deletedObjects.lookup id with
  | none => exact ⟨(t, l), rfl, rfl⟩
  | some deletion =>
    simp only [Loop.bind_ok, Except.ok.injEq, exists_eq_left']
    split
    · exact ⟨(t, l), rfl, rfl⟩
    · exact ⟨(_, _), rfl, rfl⟩

/-- With the root of the destination in the source, the groups arrive and the deletions are queued. -/
theorem opened_total (env : Env) (hd : Linked dest) (hs : Linked source) (hroot : source.root = dest.root) :
    ∃ grown u toDelete, addMissingGroups env source dest = .ok grown ∧
      ((env.ids .groupsToDelete).list (dest.groups.keys \ source.groups.keys)).foldlM (queueDeletion env source)
        (grown, []) = .ok (u, toDelete) ∧ Opened env dest source toDelete u := by
  obtain ⟨grown, hgrown⟩ : ∃ grown, addMissingGroups env source dest = .ok grown :=
    addMissingGroups_total hd hs (by rw [hroot]; exact hd.root_mem)
  have spec := addMissingGroups_grown hd hs hgrown
  obtain ⟨⟨u, toDelete⟩, hu, -⟩ := Loop.foldlM_total (f := queueDeletion env source) (s := (grown, []))
    (l := (env.ids .groupsToDelete).list (dest.groups.keys \ source.groups.keys))
    (fun st => st.1 = { grown with deletedObjects := st.1.deletedObjects })
    (fun i hi st hst => by
      have hi := ((env.ids .groupsToDelete).mem_list _).1 hi
      rw [Finset.mem_sdiff, Finmap.mem_keys, Finmap.mem_keys] at hi
      obtain ⟨g, hg⟩ := (mem_groups dest).1 hi.1
      have group : st.1.group i = some g := by
        rw [hst]
        exact (spec.untouched i hi.2).trans hg
      have update : getLastUpdate env st.1 g = getLastUpdate env dest g := by
        rw [← spec.getLastUpdate_eq hd hg]
        refine getLastUpdate_congr (fun e _ => ?_) fun c _ => ?_
        · rw [hst]; rfl
        · rw [hst]; rfl
      obtain ⟨st', hst', hrest⟩ := queueDeletion_total source group (update ▸ getLastUpdate_total hd hg)
      refine ⟨st', hst', hrest.trans ?_⟩
      conv_lhs => rw [hst]) rfl
  exact ⟨grown, u, toDelete, hgrown, hu, spec.opened (queueDeletions_queued spec hd hu)⟩

/-! ## Entries that come -/

theorem addEntryFrom_total (hs : Linked source) (hi : id ∈ source.entries) (hno : id ∉ t.entries) :
    ∃ t', addEntryFrom source t id = .ok t' := by
  obtain ⟨s, hs'⟩ := (mem_entries source).1 hi
  obtain ⟨g, hg⟩ := (mem_groups source).1 (hs.home hs')
  obtain ⟨t₁, ht₁⟩ : ∃ t₁, (do
      let _ ← expect (source.group s.parent)
      if s.parent ∈ t.groups then t.addEntryWithId s.parent id s else return t) = Except.ok t₁ := by
    rw [hg]
    by_cases hp : s.parent ∈ t.groups
    · exact ⟨_, Loop.bind_ok.2 ⟨g, rfl, by rw [if_pos hp]; unfold addEntryWithId; rw [if_neg hno]⟩⟩
    · exact ⟨t, Loop.bind_ok.2 ⟨g, rfl, by rw [if_neg hp]; rfl⟩⟩
  simp only [addEntryFrom, hs', expect, Loop.bind_ok, Except.ok.injEq, exists_eq_left']
  cases t.deletedObjects.lookup id with
  | none => exact ⟨t₁, ht₁⟩
  | some deletion =>
    by_cases hk : keptOut deletion s.times.lastUpdate = true
    · exact ⟨t, by rw [if_pos hk]; rfl⟩
    · exact ⟨t₁, by rw [if_neg hk]; exact ht₁⟩

theorem addEntryFrom_bare (h : addEntryFrom source t id = .ok t') (i : GroupId) :
    (t'.group i).map Group.bare = (t.group i).map Group.bare := by
  simp only [addEntryFrom, Loop.bind_ok, expect_ok] at h
  obtain ⟨s, -, h⟩ := h
  have adds : (expect (source.group s.parent) >>= fun _ =>
      if s.parent ∈ t.groups then t.addEntryWithId s.parent id s else pure t) = .ok t' →
      (t'.group i).map Group.bare = (t.group i).map Group.bare := by
    intro h
    obtain ⟨_, -, h⟩ := Loop.bind_ok.1 h
    split at h
    · obtain ⟨-, rfl⟩ := addEntryWithId_ok h
      exact bare_modifyGroup fun _ => rfl
    · rw [← Loop.pure_ok.1 h]
  cases hdel : t.deletedObjects.lookup id with
  | none => exact adds (by simpa [hdel] using h)
  | some deletion =>
    cases hk : keptOut deletion s.times.lastUpdate with
    | true =>
      simp only [hdel, hk, if_true, Loop.pure_ok] at h
      rw [← h]
    | false => exact adds (by simpa [hdel, hk] using h)

/-- `t` is `u` with the entries of the source that the merge adds. -/
structure Joined (env : Env) (dest source u t : Database) : Prop extends SameGroups u t where
  attachments : t.attachments = dest.attachments
  bare : ∀ i, (t.group i).map Group.bare = (u.group i).map Group.bare
  entry : ∀ x e, t.entry x = some e ↔ dest.entry x = some e ∨
    (dest.entry x = none ∧ source.entry x = some e ∧ ∃ p, Lands env dest source x p)

namespace Joined

variable (h : Joined env dest source u t)

include h

theorem old {d : Entry} (hd : dest.entry id = some d) : t.entry id = some d := (h.entry id d).2 (.inl hd)

theorem mem_entries_iff : id ∈ t.entries ↔ id ∈ dest.entries ∨ ∃ p, Lands env dest source id p := by
  rw [mem_entries, mem_entries]
  simp only [h.entry]
  constructor
  · rintro ⟨e, hd | ⟨-, -, hp⟩⟩
    · exact .inl ⟨e, hd⟩
    · exact .inr hp
  · rintro (⟨e, hd⟩ | ⟨p, hp⟩)
    · exact ⟨e, .inl hd⟩
    · cases hd : dest.entry id with
      | some d => exact ⟨d, .inl rfl⟩
      | none =>
        cases hp with
        | added _ hs hb hj => exact ⟨_, .inr ⟨rfl, hs, _, .added hd hs hb hj⟩⟩
        | kept hd' _ _ => rw [hd] at hd'; cases hd'
        | both hd' _ _ => rw [hd] at hd'; cases hd'

theorem gone_iff : Gone env dest source id ↔ ¬ EntryStays env dest source id ∧ id ∈ t.entries :=
  and_congr_right fun _ => h.mem_entries_iff.symm

/-- What is removed from now on can be removed. -/
theorem ready (removable : Removable env dest source) : Ready (fun x => ¬ EntryStays env dest source x) t := by
  have frees : ∀ x c, LeavesSlot env dest source x c ↔
      ¬ EntryStays env dest source x ∧ ∃ e, t.entry x = some e ∧ e.Uses c := by
    intro x c
    refine and_congr_right fun _ => ?_
    simp only [h.entry]
    constructor
    · rintro (⟨d, hd, hc⟩ | ⟨hd, s, hs, hp, hc⟩)
      · exact ⟨d, .inl hd, hc⟩
      · exact ⟨s, .inr ⟨hd, hs, hp⟩, hc⟩
    · rintro ⟨e, hd | ⟨hd, hs, hp⟩, hc⟩
      · exact .inl ⟨e, hd, hc⟩
      · exact .inr ⟨hd, e, hs, hp, hc⟩
  have once : ∀ x e, t.entry x = some e → (dest.entry x).or (source.entry x) = some e := by
    intro x e he
    rcases (h.entry x e).1 he with hd | ⟨hd, hs, -⟩
    · rw [hd, Option.some_or]
    · rw [hd, Option.none_or, hs]
  intro x c hx
  obtain ⟨a, ha, hcases⟩ := removable x c ((frees x c).2 hx)
  refine ⟨a, by rw [h.attachments]; exact ha, hcases.imp ?_ ?_⟩
  · rintro ⟨r, hr, hno⟩
    exact ⟨r, hr, fun hf => hno ((frees r.1 c).2 hf)⟩
  intro hall y hy
  obtain ⟨ho, hback⟩ := hall y ((frees y c).2 hy)
  exact ⟨fun e he => ho e (once y e he), hback.imp_right fun honly z hz => honly z ((frees z c).2 hz)⟩

end Joined

/-- The first loop of the entries. -/
theorem joined_total (o : Opened env dest source toDelete u) (hs : Linked source) :
    ∃ t, ((env.ids .entriesToAdd).list (source.entries.keys \ u.entries.keys)).foldlM (addEntryFrom source) u = .ok t ∧
      Joined env dest source u t := by
  have hmem : ∀ x, x ∈ (env.ids .entriesToAdd).list (source.entries.keys \ u.entries.keys) ↔
      x ∈ source.entries ∧ x ∉ u.entries := fun x => by
    rw [(env.ids .entriesToAdd).mem_list, Finset.mem_sdiff, Finmap.mem_keys, Finmap.mem_keys]
  obtain ⟨t, ht, -⟩ := Loop.foldlM_total_rest (f := addEntryFrom source) (s := u)
    (l := (env.ids .entriesToAdd).list (source.entries.keys \ u.entries.keys))
    (fun rest v => SameGroups u v ∧ ∀ x ∈ rest, x ∉ v.entries) (fun x rest v hsuf hv => by
      have hx := (hmem x).1 (hsuf.subset List.mem_cons_self)
      have hn := (List.nodup_cons.1 (((env.ids .entriesToAdd).nodup_list _).sublist hsuf.sublist)).1
      obtain ⟨v', hv'⟩ := addEntryFrom_total hs hx.1 (hv.2 x List.mem_cons_self)
      obtain ⟨round, -⟩ := addEntryFrom_round hv.1.linked hs hv'
      refine ⟨v', hv', hv.1.round round, fun y hy hyv => hv.2 y (List.mem_cons_of_mem x hy) ?_⟩
      have hyx : y ≠ x := by rintro rfl; exact hn hy
      obtain ⟨e, he⟩ := (mem_entries v').1 hyv
      exact (mem_entries v).2 ⟨e, (round.others y hyx).symm.trans he⟩)
    ⟨.refl o.linked, fun x hx => ((hmem x).1 hx).2⟩
  obtain ⟨⟨same, hatt, hbare⟩, others, each⟩ := Loop.foldlM_each cell (fun v => SameGroups u v ∧
      v.attachments = u.attachments ∧ ∀ i, (v.group i).map Group.bare = (u.group i).map Group.bare)
    ((env.ids .entriesToAdd).nodup_list _)
    (fun x _ v v' hv hstep => by
      obtain ⟨round, -, hatt, -⟩ := addEntryFrom_round hv.1.linked hs hstep
      exact ⟨⟨hv.1.round round, hatt.trans hv.2.1, fun i => (addEntryFrom_bare hstep i).trans (hv.2.2 i)⟩,
        fun y hy => round.cell hy⟩) ht ⟨.refl o.linked, rfl, fun _ => rfl⟩
  refine ⟨t, ht, same, hatt.trans o.attachments, hbare, fun x e => ?_⟩
  -- an entry of the list is settled in its own round, the others are as before the loop
  by_cases hx : x ∈ source.entries ∧ x ∉ u.entries
  · obtain ⟨v, v', ⟨hv, -⟩, hstep, hget, hget'⟩ := each x ((hmem x).2 hx)
    obtain ⟨-, -, -, s, hsx, hcases⟩ := addEntryFrom_round hv.linked hs hstep
    have hd : dest.entry x = none := by rw [← o.entry]; exact Finmap.notMem_iff_lookup.1 hx.2
    simp only [cell, Prod.mk.injEq] at hget hget'
    rw [hget'.1, hd, hsx]
    rw [hget.2, hv.mem, ← o.barred_iff, o.joins] at hcases
    have lands : (∃ p, Lands env dest source x p) ↔ ¬ Barred env dest source x s ∧ Joins env dest source s.parent := by
      constructor
      · rintro ⟨_, ⟨-, hs', hb, hj⟩ | ⟨hd', -, -⟩ | ⟨hd', -, -⟩⟩
        · rw [hsx, Option.some.injEq] at hs'; subst hs'
          exact ⟨hb, hj⟩
        · rw [hd] at hd'; cases hd'
        · rw [hd] at hd'; cases hd'
      · rintro ⟨hb, hj⟩
        exact ⟨_, .added hd hsx hb hj⟩
    rw [lands]
    rcases hcases with ⟨hb, hj, he⟩ | ⟨hno, heq⟩
    · rw [he]; simp [hb, hj]
    · rw [heq, hget.1, o.entry, hd]
      simp only [reduceCtorEq, true_and, false_or, false_iff, not_and]
      exact fun _ hb hj => hno.elim hb fun hn => hn hj
  · have hcell := others x fun hin => hx ((hmem x).1 hin)
    simp only [cell, Prod.mk.injEq] at hcell
    rw [hcell.1, o.entry]
    refine ⟨.inl, fun h => h.resolve_right ?_⟩
    rintro ⟨hd, hsx, -⟩
    refine hx ⟨(mem_entries source).2 ⟨e, hsx⟩, ?_⟩
    rw [show x ∈ u.entries ↔ x ∈ dest.entries by rw [o.entries]]
    exact Finmap.notMem_iff_lookup.2 hd

/-! ## Entries that go -/

theorem removeEntryFrom_total (env : Env) {Out : EntryId → Prop} {d : Entry} (hl : Linked t) (ready : Ready Out t)
    (hd : t.entry id = some d) (hout : Deleted source id d → Out id) :
    ∃ t', removeEntryFrom env source t id = .ok t' := by
  simp only [removeEntryFrom, hd, expect, Loop.bind_ok, Except.ok.injEq, exists_eq_left']
  cases hdel : source.deletedObjects.lookup id with
  | none => exact ⟨t, rfl⟩
  | some deletion =>
    dsimp only
    by_cases hlive : outlived deletion d.times.lastUpdate = true
    · exact ⟨t, by rw [if_pos hlive]; rfl⟩
    · obtain ⟨t₁, ht₁⟩ := removeEntry_total env hl ready (hout ⟨deletion, hdel, by simpa using hlive⟩) hd
      exact ⟨_, by rw [if_neg hlive]; exact Loop.bind_ok.2 ⟨t₁, ht₁, rfl⟩⟩

/-- The second loop of the entries. -/
theorem removed_total (joined : Joined env dest source u t) (removable : Removable env dest source) :
    ∃ t', ((env.ids .entriesToDelete).list (dest.entries.keys \ source.entries.keys)).foldlM
        (removeEntryFrom env source) t = .ok t' ∧ SameGroups u t' ∧ Trims t t' ∧
      Ready (fun x => ¬ EntryStays env dest source x) t' ∧
      ∀ x, x ∈ source.entries → t'.entry x = t.entry x := by
  have hmem : ∀ x, x ∈ (env.ids .entriesToDelete).list (dest.entries.keys \ source.entries.keys) ↔
      x ∈ dest.entries ∧ x ∉ source.entries := fun x => by
    rw [(env.ids .entriesToDelete).mem_list, Finset.mem_sdiff, Finmap.mem_keys, Finmap.mem_keys]
  obtain ⟨t', ht', same, trims, ready, -, hsame⟩ := Loop.foldlM_total_rest (f := removeEntryFrom env source) (s := t)
    (l := (env.ids .entriesToDelete).list (dest.entries.keys \ source.entries.keys))
    (fun rest v => SameGroups u v ∧ Trims t v ∧ Ready (fun x => ¬ EntryStays env dest source x) v ∧
      (∀ x ∈ rest, v.entry x = t.entry x) ∧ ∀ x, x ∈ source.entries → v.entry x = t.entry x)
    (fun x rest v hsuf hv => by
      obtain ⟨same, trims, ready, hrest, hsame⟩ := hv
      have hx := (hmem x).1 (hsuf.subset List.mem_cons_self)
      have hn := (List.nodup_cons.1 (((env.ids .entriesToDelete).nodup_list _).sublist hsuf.sublist)).1
      obtain ⟨d, hd⟩ := (mem_entries dest).1 hx.1
      have hs : source.entry x = none := Finmap.notMem_iff_lookup.1 hx.2
      have hdv : v.entry x = some d := (hrest x List.mem_cons_self).trans (joined.old hd)
      have hout : Deleted source x d → ¬ EntryStays env dest source x := by
        rintro hdel ⟨_, ⟨hd', -, -, -⟩ | ⟨hd', -, hno⟩ | ⟨-, hs', -⟩, -⟩
        · rw [hd] at hd'; cases hd'
        · rw [hd, Option.some.injEq] at hd'; subst hd'
          exact hno hdel
        · rw [hs] at hs'; cases hs'
      obtain ⟨v', hv'⟩ := removeEntryFrom_total env same.linked ready hdv hout
      obtain ⟨round, d', hd', hcases⟩ := removeEntryFrom_round same.linked hv'
      rw [hdv, Option.some.injEq] at hd'; subst hd'
      refine ⟨v', hv', same.round round, trims.trans (removeEntryFrom_trims hv'),
        ready.clears (removeEntryFrom_clears hv') fun y e he hnone => ?_, fun y hy => ?_, fun y hy => ?_⟩
      · by_cases hyx : y = x
        · rw [hyx] at he hnone ⊢
          rcases hcases with ⟨hdel, -, -⟩ | ⟨-, rfl⟩
          · exact hout hdel
          · rw [he] at hnone; cases hnone
        · rw [round.others y hyx, he] at hnone; cases hnone
      · have hyx : y ≠ x := by rintro rfl; exact hn hy
        exact (round.others y hyx).trans (hrest y (List.mem_cons_of_mem x hy))
      · have hyx : y ≠ x := by rintro rfl; exact hx.2 hy
        exact (round.others y hyx).trans (hsame y hy))
    ⟨joined.toSameGroups, .refl t, joined.ready removable, fun _ _ => rfl, fun _ _ => rfl⟩
  exact ⟨t', ht', same, trims, ready, hsame⟩

/-! ## Entries on both sides -/

/-- A tie of diverged versions stops the round. -/
theorem mergeEntryInBoth_refuses {d s : Entry} (hl : Linked t) (hs : Linked source) (hd : t.entry id = some d)
    (hs' : source.entry id = some s)
    (tie : d.times.lastModification.getD (env.now .entriesInBoth id) = s.times.lastModification.getD Times.epoch)
    (hdiv : haveEntriesDiverged (followed (decide (s.parent ∈ t.groups)) d s).toVersion s.toVersion) :
    ∃ left, mergeEntryInBoth env source t id = .error (.merge (.entryModificationTimeNotUpdated id) left) := by
  obtain ⟨t₁, ht₁⟩ := followMove_total hl hs hd hs'
  obtain ⟨-, -, -, hentry⟩ := followMove_round hl hd ht₁
  refine ⟨t₁, ?_⟩
  simp only [mergeEntryInBoth, hd, hs', expect, bind, Except.bind, ht₁, hentry, followed_lastModification]
  rw [if_pos tie, if_pos hdiv]

theorem mergeEntryInBoth_trims (hl : Linked t) (h : mergeEntryInBoth env source t id = .ok t') : Trims t t' := by
  obtain ⟨round, -, -, d, s, hd, -, hentry, -⟩ := mergeEntryInBoth_round hl h
  refine .of_kept (fun x => ?_) (mergeEntryInBoth_bare h)
  rw [mem_entries, mem_entries]
  by_cases hx : x = id
  · subst hx
    exact iff_of_true ⟨_, hentry⟩ ⟨d, hd⟩
  · rw [round.others x hx]

/-- The entries are merged, or two of them are refused. -/
theorem mergeEntries_decides (o : Opened env dest source toDelete u) (hs : Linked source)
    (removable : Removable env dest source) :
    (∃ t joined, mergeEntries env source u = .ok t ∧ (∀ x, ¬ EntryTies env dest source x) ∧
      Ready (fun x => ¬ EntryStays env dest source x) t ∧ Joined env dest source u joined ∧ Trims joined t) ∨
    ∃ e left, mergeEntries env source u = .error (.merge e left) ∧ ∃ x, EntryTies env dest source x := by
  obtain ⟨joined, h₁, hjoined⟩ := joined_total o hs
  obtain ⟨t₂, h₂, same, trims, ready, hsame⟩ := removed_total hjoined removable
  have keys : u.entries = dest.entries := o.entries
  rw [← keys] at h₂
  have hmem : ∀ x, x ∈ (env.ids .entriesInBoth).list (u.entries.keys ∩ source.entries.keys) ↔
      x ∈ dest.entries ∧ x ∈ source.entries := fun x => by
    rw [(env.ids .entriesInBoth).mem_list, Finset.mem_inter, Finmap.mem_keys, Finmap.mem_keys, keys]
  have whole : ∀ {r}, ((env.ids .entriesInBoth).list (u.entries.keys ∩ source.entries.keys)).foldlM
      (mergeEntryInBoth env source) t₂ = r → mergeEntries env source u = r := fun h => by
    simp only [mergeEntries, h₁, h₂, bind, Except.bind]
    exact h
  -- the entries still to come are as the removals left them, and none that was merged ties
  have rounds := Loop.foldlM_decides (f := mergeEntryInBoth env source) (s := t₂)
    (l := (env.ids .entriesInBoth).list (u.entries.keys ∩ source.entries.keys))
    (fun rest v => SameGroups u v ∧ Trims joined v ∧ Ready (fun x => ¬ EntryStays env dest source x) v ∧
      (∀ x ∈ rest, v.entry x = t₂.entry x) ∧
      ∀ x, x ∈ dest.entries → x ∈ source.entries → x ∉ rest → ¬ EntryTies env dest source x)
    (fun fault => (∃ e left, fault = .merge e left) ∧ ∃ x, EntryTies env dest source x)
    (fun x rest v hsuf hv => by
      obtain ⟨same, trims, ready, hrest, hdone⟩ := hv
      have hx := (hmem x).1 (hsuf.subset List.mem_cons_self)
      have hn := (List.nodup_cons.1 (((env.ids .entriesInBoth).nodup_list _).sublist hsuf.sublist)).1
      obtain ⟨d, hd⟩ := (mem_entries dest).1 hx.1
      obtain ⟨s, hsx⟩ := (mem_entries source).1 hx.2
      have hdv : v.entry x = some d :=
        ((hrest x List.mem_cons_self).trans (hsame x hx.2)).trans (hjoined.old hd)
      have present : decide (s.parent ∈ v.groups) = true ↔ Joins env dest source s.parent := by
        rw [decide_eq_true_iff, same.mem, o.joins]
      by_cases htie : EntryTies env dest source x
      · refine .inr ?_
        obtain ⟨d', s', present', hd', hs', hp, tie, hdiv⟩ := htie
        rw [hd, Option.some.injEq] at hd'; subst hd'
        rw [hsx, Option.some.injEq] at hs'; subst hs'
        rw [Bool.eq_iff_iff.2 (hp.trans present.symm)] at hdiv
        obtain ⟨left, hleft⟩ := mergeEntryInBoth_refuses same.linked hs hdv hsx tie hdiv
        exact ⟨_, hleft, ⟨_, left, rfl⟩, x, d, s, _, hd, hsx, present, tie, hdiv⟩
      · refine .inl ?_
        obtain ⟨v', hv'⟩ : ∃ v', mergeEntryInBoth env source v x = .ok v' :=
          mergeEntryInBoth_total same.linked hs hdv hsx fun tie hdiv => htie ⟨d, s, _, hd, hsx, present, tie, hdiv⟩
        obtain ⟨round, -⟩ := mergeEntryInBoth_round same.linked hv'
        have htrims := mergeEntryInBoth_trims same.linked hv'
        refine ⟨v', hv', same.round round, trims.trans htrims,
          ready.clears (mergeEntryInBoth_clears same.linked hv') fun y e he hnone => ?_, fun y hy => ?_,
          fun y hyd hys hy => ?_⟩
        · by_cases hyx : y = x
          · obtain ⟨-, -, -, _, _, -, -, hentry, -⟩ := mergeEntryInBoth_round same.linked hv'
            rw [hyx, hentry] at hnone; cases hnone
          · rw [round.others y hyx, he] at hnone; cases hnone
        · have hyx : y ≠ x := by rintro rfl; exact hn hy
          exact (round.others y hyx).trans (hrest y (List.mem_cons_of_mem x hy))
        · by_cases hyx : y = x
          · rw [hyx]; exact htie
          · exact hdone y hyd hys fun hin => (List.mem_cons.1 hin).elim hyx hy)
    ⟨same, trims, ready, fun _ _ => rfl, fun x hd hx hnot => absurd ((hmem x).2 ⟨hd, hx⟩) hnot⟩
  rcases rounds with ⟨t, ht, -, trims, ready, -, hdone⟩ | ⟨_, ht, ⟨e, left, rfl⟩, hties⟩
  · refine .inl ⟨t, joined, whole ht, fun x hx => ?_, ready, hjoined, trims⟩
    obtain ⟨d, s, -, hd, hsx, -⟩ := id hx
    exact hdone x ((mem_entries dest).2 ⟨d, hd⟩) ((mem_entries source).2 ⟨s, hsx⟩) List.not_mem_nil hx
  · exact .inr ⟨e, left, whole ht, hties⟩

end Keepass.Database
