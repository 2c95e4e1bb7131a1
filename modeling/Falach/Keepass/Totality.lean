import Falach.Keepass.Outcome
/-!
# When a merge returns

On linked trees the walks end, the lookups succeed and the loop that adds groups needs no more rounds than it has. What
is left to stop a merge is an entry or a group that diverged without a newer modification time.
-/

namespace Keepass.Database

variable {env : Env} {dest source db t t' : Database} {id : Uuid}

theorem expect_total {α : Type} {o : Option α} {a : α} (h : o = some a) : ∃ b, expect o = .ok b := ⟨a, expect_ok.2 h⟩

/-! ## Adding groups -/

theorem getLastUpdate_total (hl : Linked db) {g : Group} (hg : db.group id = some g) :
    ∃ update, getLastUpdate env db g = .ok update := by
  obtain ⟨es, hes⟩ := Loop.mapM_total (f := fun e => expect (db.entry e)) (l := (env.ids .childEntries).list g.entries)
    fun e he => by
      obtain ⟨x, hx, -⟩ := homeOf_eq_some.1 ((hl.child_entries hg e).1 (((env.ids .childEntries).mem_list _).1 he))
      exact expect_total hx
  obtain ⟨gs, hgs⟩ := Loop.mapM_total (f := fun c => expect (db.group c)) (l := (env.ids .childGroups).list g.groups)
    fun c hc => by
      have hc := ((hl.child_groups hg c).1 (((env.ids .childGroups).mem_list _).1 hc)).1
      obtain ⟨x, hx⟩ := (mem_groups db).1 (mem_groups_of_parentOf hc)
      exact expect_total hx
  refine ⟨(es.map (·.times.lastUpdate) ++ gs.map (·.times.lastUpdate) ++ [g.times.lastUpdate]).reduceOption.max?, ?_⟩
  simp only [getLastUpdate, Loop.bind_ok]
  exact ⟨es, hes, gs, hgs, rfl⟩

theorem wantsGroup_total (hs : Linked source) (hi : id ∈ source.groups) :
    ∃ b, wantsGroup env dest source id = .ok b := by
  obtain ⟨g, hg⟩ := (mem_groups source).1 hi
  obtain ⟨u, hu⟩ : ∃ u, getLastUpdate env source g = .ok u := getLastUpdate_total hs hg
  cases hdel : dest.deletedObjects.lookup id with
  | none => exact ⟨true, by simp only [wantsGroup, hg, expect, hdel]; rfl⟩
  | some deletion =>
    refine ⟨!keptOut deletion u, ?_⟩
    simp only [wantsGroup, hg, expect, hdel, Loop.bind_ok]
    exact ⟨g, rfl, u, hu, rfl⟩

/-- What besides `Adding` keeps the loop going: the stack climbs from a child to its parent, and neither it nor the
set has a group that is there already. -/
structure Climbing (source : Database) (toAdd : Finset GroupId) (stack : List GroupId) (t : Database) : Prop where
  climbs : stack.IsChain fun p c => source.parentOf c = some p
  nodup : stack.Nodup
  stacked : ∀ i ∈ stack, i ∉ t.groups ∧ i ∉ toAdd
  queued : ∀ i ∈ toAdd, i ∉ t.groups

theorem below_of_climbs {stack : List GroupId} {top : GroupId}
    (h : (top :: stack).IsChain fun p c => source.parentOf c = some p) :
    ∀ i ∈ top :: stack, Below source.parentOf top i := by
  induction stack generalizing top with
  | nil =>
    intro i hi
    rw [List.mem_singleton.1 hi]
    exact .self
  | cons c stack ih =>
    intro i hi
    rcases List.mem_cons.1 hi with rfl | hi
    · exact .self
    · obtain ⟨hc, hrest⟩ := List.isChain_cons_cons.1 h
      exact (Below.child hc .self).trans (ih hrest i hi)

/-- The groups still to come, twice, less the stack: every round takes at least one away. -/
theorem addGroups_total (hs : Linked source) (hroot : source.root ∈ dest.groups) {n : Nat} {toAdd : Finset GroupId}
    {stack : List GroupId} (h : Adding env dest source toAdd stack t) (hc : Climbing source toAdd stack t)
    (hn : 2 * (source.groups.keys \ t.groups.keys).card + 1 ≤ n + stack.length) :
    ∃ t', addGroups env source n toAdd stack t = .ok t' := by
  have missing : ∀ {i}, Arrives env dest source i → i ∉ t.groups → i ∈ source.groups.keys \ t.groups.keys := by
    intro i hi ht
    rw [Finset.mem_sdiff, Finmap.mem_keys, Finmap.mem_keys]
    exact ⟨hi.mem_source hs, ht⟩
  have length : stack.length ≤ (source.groups.keys \ t.groups.keys).card := by
    rw [← List.toFinset_card_of_nodup hc.nodup]
    refine Finset.card_le_card fun i hi => ?_
    have hi := List.mem_toFinset.1 hi
    exact missing (h.stacked i hi) (hc.stacked i hi).1
  -- a push makes the stack longer and an added group counts twice, so every round shrinks the measure
  induction n generalizing toAdd stack t with
  | zero => omega
  | succ n ih =>
    cases stack with
    | nil =>
      simp only [addGroups]
      split
      · exact ⟨t, rfl⟩
      · rename_i next rest hlist
        have hnext : next ∈ toAdd := ((env.ids .groupsToAdd).mem_list toAdd).1 (hlist ▸ List.mem_cons_self)
        have arrives := h.queued next hnext
        have absent := hc.queued next hnext
        have card : 0 < (source.groups.keys \ t.groups.keys).card := Finset.card_pos.2 ⟨next, missing arrives absent⟩
        refine ih (h.refill hnext) ⟨.singleton next, List.nodup_singleton next, ?_, ?_⟩ ?_ missing ?_
        · intro i hi
          rw [List.mem_singleton.1 hi]
          exact ⟨absent, Finset.notMem_erase next toAdd⟩
        · exact fun i hi => hc.queued i (Finset.mem_of_mem_erase hi)
        · simp only [List.length_nil, List.length_singleton] at hn ⊢; omega
        · simpa using card
    | cons top stack =>
      have arrives := h.stacked top List.mem_cons_self
      obtain ⟨absent, hqueue⟩ := hc.stacked top List.mem_cons_self
      have htop := arrives.mem_source hs
      obtain ⟨g, hg⟩ := (mem_groups source).1 htop
      have hnotRoot : top ≠ source.root := by rintro rfl; exact arrives.notMem hroot
      obtain ⟨p, hp⟩ := hs.parent_some htop hnotRoot
      have hgp : g.parent = some p := (parentOf_of_group hg).symm.trans hp
      obtain ⟨gp, hgp'⟩ := (mem_groups source).1 (hs.parent_mem hp)
      simp only [addGroups, hg, hgp, hgp', expect, Loop.bind_ok, Except.ok.injEq, exists_eq_left']
      by_cases hpt : p ∈ t.groups
      · -- the top of the stack is added
        obtain ⟨t₁, hadd⟩ : ∃ t₁, t.addGroupWithId p top (copyGroup g p) = .ok t₁ :=
          ⟨_, by unfold addGroupWithId; rw [if_neg absent]⟩
        have added := h.add hs hg hgp hpt hadd
        have mem : ∀ i, i ∈ t₁.groups ↔ i = top ∨ i ∈ t.groups := by
          intro i
          rw [(addGroupWithId_ok hadd).2, Finmap.mem_insert, Finmap.mem_modify]
        have card : (source.groups.keys \ t₁.groups.keys).card + 1 = (source.groups.keys \ t.groups.keys).card := by
          rw [← Finset.card_erase_add_one (missing arrives absent)]
          congr 2
          ext i
          simp only [Finset.mem_sdiff, Finset.mem_erase, Finmap.mem_keys, mem]
          tauto
        rw [if_pos hpt]
        refine (ih added ⟨?_, (List.nodup_cons.1 hc.nodup).2, ?_, ?_⟩ ?_ ?_ ?_).imp fun t' ht' =>
          Loop.bind_ok.2 ⟨t₁, hadd, ht'⟩
        · exact (List.isChain_cons.1 hc.climbs).2
        · intro i hi
          have hold := hc.stacked i (List.mem_cons_of_mem top hi)
          refine ⟨fun hm => ?_, hold.2⟩
          rcases (mem i).1 hm with rfl | hm
          · exact (List.nodup_cons.1 hc.nodup).1 hi
          · exact hold.1 hm
        · intro i hi hm
          rcases (mem i).1 hm with rfl | hm
          · exact hqueue hi
          · exact hc.queued i hi hm
        · simp only [List.length_cons] at hn; omega
        · intro i hi ht
          rw [Finset.mem_sdiff, Finmap.mem_keys, Finmap.mem_keys]
          exact ⟨hi.mem_source hs, ht⟩
        · simp only [List.length_cons] at length; omega
      · -- its parent goes on top of it
        rw [if_neg hpt]
        have pushed := h.push hp hpt
        have hpArrives := pushed.stacked p List.mem_cons_self
        have hpstack : p ∉ top :: stack := fun hm =>
          Below.acyclic hs.root_parent (hs.rooted htop) p hp (below_of_climbs hc.climbs p hm)
        have card : (top :: stack).length < (source.groups.keys \ t.groups.keys).card := by
          have := Finset.card_le_card (s := (p :: top :: stack).toFinset) (t := source.groups.keys \ t.groups.keys) ?_
          · rw [List.toFinset_card_of_nodup (List.nodup_cons.2 ⟨hpstack, hc.nodup⟩)] at this
            simp only [List.length_cons] at this ⊢; omega
          · intro i hi
            rcases List.mem_cons.1 (List.mem_toFinset.1 hi) with rfl | hi
            · exact missing hpArrives hpt
            · exact missing (h.stacked i hi) (hc.stacked i hi).1
        refine ih pushed ⟨List.isChain_cons_cons.2 ⟨hp, hc.climbs⟩, List.nodup_cons.2 ⟨hpstack, hc.nodup⟩, ?_,
          ?_⟩ ?_ missing ?_
        · intro i hi
          rcases List.mem_cons.1 hi with rfl | hi
          · exact ⟨hpt, Finset.notMem_erase i toAdd⟩
          · exact ⟨(hc.stacked i hi).1, fun hm => (hc.stacked i hi).2 (Finset.mem_of_mem_erase hm)⟩
        · exact fun i hi => hc.queued i (Finset.mem_of_mem_erase hi)
        · simp only [List.length_cons] at hn ⊢; omega
        · simp only [List.length_cons] at card ⊢; omega

theorem addMissingGroups_total (hd : Linked dest) (hs : Linked source) (hroot : source.root ∈ dest.groups) :
    ∃ t, addMissingGroups env source dest = .ok t := by
  obtain ⟨wanted, hw⟩ := Loop.filterM_total (p := wantsGroup env dest source)
    (l := (env.ids .groupsToAdd).list (source.groups.keys \ dest.groups.keys)) fun i hi => by
      have hi := ((env.ids .groupsToAdd).mem_list _).1 hi
      rw [Finset.mem_sdiff, Finmap.mem_keys] at hi
      exact wantsGroup_total hs hi.1
  have start := startAdding hd hw
  obtain ⟨t, ht⟩ := addGroups_total (n := 3 * source.groups.keys.card + 1) hs hroot start
    ⟨.nil, List.nodup_nil, fun i hi => (List.not_mem_nil hi).elim, fun i hi => (start.queued i hi).notMem⟩ (by
      have := Finset.card_le_card (Finset.sdiff_subset (s := source.groups.keys) (t := dest.groups.keys))
      simp only [List.length_nil]; omega)
  exact ⟨t, Loop.bind_ok.2 ⟨wanted, hw, ht⟩⟩

/-! ## Entry rounds -/

theorem followMove_total {d s : Entry} (hl : Linked t) (hs : Linked source) (hd : t.entry id = some d)
    (hs' : source.entry id = some s) : ∃ t', followMove source t d s id = .ok t' := by
  obtain ⟨gd, hgd⟩ := (mem_groups t).1 (hl.home hd)
  obtain ⟨gs, hgs⟩ := (mem_groups source).1 (hs.home hs')
  simp only [followMove, hgd, hgs, expect, Loop.bind_ok, Except.ok.injEq, exists_eq_left']
  split
  · split
    · split
      · by_cases hp : s.parent ∈ t.groups
        · obtain ⟨t₁, ht₁⟩ : ∃ t₁, t.moveEntryTo id s.parent = .ok (some t₁) := by
            unfold moveEntryTo
            rw [if_pos hp]
            simp only [hd, hgd, expect, Loop.bind_ok, Except.ok.injEq, exists_eq_left']
            exact ⟨_, rfl⟩
          exact ⟨_, Loop.bind_ok.2 ⟨_, ht₁, rfl⟩⟩
        · have : t.moveEntryTo id s.parent = .ok none := by unfold moveEntryTo; rw [if_neg hp]; rfl
          exact ⟨t, Loop.bind_ok.2 ⟨_, this, rfl⟩⟩
      · exact ⟨t, rfl⟩
    · exact ⟨t, rfl⟩
  · exact ⟨t, rfl⟩

/-- Only a tie of diverged versions stops a round. -/
theorem mergeEntryInBoth_total {d s : Entry} (hl : Linked t) (hs : Linked source) (hd : t.entry id = some d)
    (hs' : source.entry id = some s)
    (tie : d.times.lastModification.getD (env.now .entriesInBoth id) = s.times.lastModification.getD Times.epoch →
      ¬ haveEntriesDiverged (followed (decide (s.parent ∈ t.groups)) d s).toVersion s.toVersion) :
    ∃ t', mergeEntryInBoth env source t id = .ok t' := by
  obtain ⟨t₁, ht₁⟩ := followMove_total hl hs hd hs'
  obtain ⟨-, -, -, hentry⟩ := followMove_round hl hd ht₁
  simp only [mergeEntryInBoth, hd, hs', ht₁, hentry, expect, Loop.bind_ok, Except.ok.injEq, exists_eq_left',
    followed_lastModification]
  split
  · rw [if_neg (tie ‹_›)]; exact ⟨_, rfl⟩
  · exact ⟨_, rfl⟩

/-- The rounds change nothing of a group but what it lists. -/
theorem mergeEntryInBoth_bare (h : mergeEntryInBoth env source t id = .ok t') (i : GroupId) :
    (t'.group i).map Group.bare = (t.group i).map Group.bare := by
  simp only [mergeEntryInBoth, Loop.bind_ok, expect_ok] at h
  obtain ⟨d, -, s, -, t₁, ht₁, d₁, -, h⟩ := h
  have moved : (t₁.group i).map Group.bare = (t.group i).map Group.bare := by
    obtain ⟨_, -, ht₁⟩ := Loop.bind_ok.1 ht₁
    obtain ⟨_, -, ht₁⟩ := Loop.bind_ok.1 ht₁
    split at ht₁
    · split at ht₁
      · split at ht₁
        · obtain ⟨r, hr, ht₁⟩ := Loop.bind_ok.1 ht₁
          cases r with
          | none => rw [← Loop.pure_ok.1 ht₁]
          | some u =>
            obtain ⟨-, e, -, rfl⟩ := moveEntryTo_ok hr
            rw [← Loop.pure_ok.1 ht₁, group_modifyEntry, group_modifyEntry]
            refine Eq.trans (bare_modifyGroup ?_) (bare_modifyGroup ?_)
            · intro g; rfl
            · intro g; rfl
        · rw [← Loop.pure_ok.1 ht₁]
      · rw [← Loop.pure_ok.1 ht₁]
    · rw [← Loop.pure_ok.1 ht₁]
  split at h
  · split at h
    · cases h
    · rw [← Loop.pure_ok.1 h]; exact moved
  · rw [← Loop.pure_ok.1 h]; exact moved

/-! ## Two databases of one shape -/

/-- The two groups are in one place and have one content. -/
def Group.Agrees (d s : Group) : Prop := d.parent = s.parent ∧ ¬ haveGroupsDiverged d s

theorem Group.agrees_of_bare {d s : Group} (h : d.bare = s.bare) : Agrees d s := by
  have parent := congrArg Group.parent h
  have content := congrArg (fun g : Group => { g with times := {}, parent := none }) h
  exact ⟨parent, not_not.2 content⟩

/-- Two databases with the same entries, whose groups agree, and of which the source has deleted no group that the
destination has. -/
structure Alike (dest source : Database) : Prop where
  root : source.root = dest.root
  entries : ∀ i, i ∈ dest.entries ↔ i ∈ source.entries
  agree : ∀ i d s, dest.group i = some d → source.group i = some s → Group.Agrees d s
  spared : ∀ i, i ∈ dest.groups → i ∉ source.groups → source.deletedObjects.lookup i = none

/-! ## A source of another root -/

/-- The loop that adds groups looks for a parent of every group it takes, and the root has none. -/
theorem addGroups_panics {root : GroupId} {r : Group} (hr : source.group root = some r) (hp : r.parent = none) {n : Nat}
    {toAdd : Finset GroupId} {stack : List GroupId} (h : root ∈ toAdd ∨ root ∈ stack) :
    addGroups env source n toAdd stack t = .error .panic := by
  induction n generalizing toAdd stack t with
  | zero => rfl
  | succ n ih =>
    cases stack with
    | nil =>
      have hroot := h.resolve_right List.not_mem_nil
      have hlist := ((env.ids .groupsToAdd).mem_list toAdd).2 hroot
      simp only [addGroups]
      split
      · rename_i hl; rw [hl] at hlist; exact absurd hlist List.not_mem_nil
      · rename_i next rest _
        refine ih ?_
        by_cases hn : root = next
        · exact .inr (by simp [hn])
        · exact .inl (Finset.mem_erase.2 ⟨hn, hroot⟩)
    | cons top stack =>
      simp only [addGroups]
      by_cases htop : top = root
      · subst htop; simp only [hr, expect, bind, Except.bind, hp]
      have h : root ∈ toAdd ∨ root ∈ stack := h.imp id fun hm => (List.mem_cons.1 hm).resolve_left (Ne.symm htop)
      cases source.group top with
      | none => rfl
      | some g =>
        cases hgp : g.parent with
        | none => simp only [expect, bind, Except.bind, hgp]
        | some p =>
          cases hsp : source.group p with
          | none => simp only [expect, bind, Except.bind, hgp, hsp]
          | some gp =>
            simp only [expect, bind, Except.bind, hgp, hsp]
            split
            · by_cases ht : top ∈ t.groups
              · simp only [addGroupWithId, if_pos ht]
              · simp only [addGroupWithId, if_neg ht]
                exact ih h
            · refine ih ?_
              by_cases hrp : root = p
              · exact .inr (by simp [hrp])
              · exact h.imp (fun hm => Finset.mem_erase.2 ⟨hrp, hm⟩) fun hm => by simp [hm]

/-- A merge with a source whose root the destination knows neither as a group nor as a deleted object panics. -/
theorem merge_panics (hs : Linked source) (hg : source.root ∉ dest.groups) (hdel : source.root ∉ dest.deletedObjects) :
    merge env dest source = .error .panic := by
  obtain ⟨r, hr⟩ := (mem_groups source).1 hs.root_mem
  have hp : r.parent = none := (parentOf_of_group hr).symm.trans hs.root_parent
  obtain ⟨wanted, hw⟩ := Loop.filterM_total (p := wantsGroup env dest source)
    (l := (env.ids .groupsToAdd).list (source.groups.keys \ dest.groups.keys)) fun i hi => by
      have hi := ((env.ids .groupsToAdd).mem_list _).1 hi
      rw [Finset.mem_sdiff, Finmap.mem_keys] at hi
      exact wantsGroup_total hs hi.1
  have wants : wantsGroup env dest source source.root = .ok true := by
    simp only [wantsGroup, hr, expect, Finmap.lookup_eq_none.2 hdel]; rfl
  have hroot : source.root ∈ wanted := by
    rw [Loop.filterM_ok hw, (env.ids .groupsToAdd).mem_list, Finset.mem_sdiff, Finmap.mem_keys, Finmap.mem_keys]
    exact ⟨⟨hs.root_mem, hg⟩, wants⟩
  have missing : addMissingGroups env source dest = .error .panic := by
    simp only [addMissingGroups, hw]
    exact addGroups_panics hr hp (.inl (List.mem_toFinset.2 hroot))
  simp only [merge, missing]; rfl

end Keepass.Database
