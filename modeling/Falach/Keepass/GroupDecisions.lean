import Falach.Keepass.EntryDecisions
/-!
# How far the groups get

Once the doomed groups are gone, two more errors can stop a merge: a group that diverged without a newer modification
time, and a move that would make a cycle. Every move goes by way of the root, so in whatever order they are made, all
of them go through exactly if the parents the groups end up with are those of a tree.
-/

namespace Keepass

/-- The source moved the group later. -/
def Group.MovedLater (d s : Group) : Prop :=
  d.parent ≠ s.parent ∧ ∃ dlc slc, d.times.locationChanged = some dlc ∧ s.times.locationChanged = some slc ∧ slc > dlc

namespace Database

variable {env : Env} {dest source db t t' u felled : Database} {id q : GroupId} {toDelete : List GroupId}

/-! ## Conditions on the two databases -/

/-- The merge moves group `i` to the group `p` that it is in in the source. -/
def Regroups (env : Env) (dest source : Database) (i p : GroupId) : Prop :=
  ∃ d s, dest.group i = some d ∧ source.group i = some s ∧ d.MovedLater s ∧ s.parent = some p ∧
    GroupStays env dest source p

open Classical in
/-- The parent a group has when all moves are made. -/
noncomputable def regroupedParent (env : Env) (dest source : Database) (i : GroupId) : Option GroupId :=
  if ∃ p, Regroups env dest source i p then source.parentOf i else joinedParent dest source i

/-- The group round for `i` refuses the two versions. A group whose new parent is not there has no round, and one that
arrives has the version of the source. -/
def GroupTies (env : Env) (dest source : Database) (i : GroupId) : Prop :=
  ∃ d s top, GroupStays env dest source i ∧ (dest.group i).or (source.group i) = some d ∧ source.group i = some s ∧
    (d.MovedLater s → ∃ p, s.parent = some p ∧ GroupStays env dest source p) ∧
    (∀ e, top = some e ↔ d.lastTopVisibleEntry = some e ∧ ¬ Gone env dest source e) ∧
    d.times.lastModification.getD (env.now .groupsInBoth i) = s.times.lastModification.getD Times.epoch ∧
    haveGroupsDiverged { d with lastTopVisibleEntry := top } s

/-- Nothing stops the merge with an error. -/
structure Settleable (env : Env) (dest source : Database) : Prop where
  entries : ∀ i, ¬ EntryTies env dest source i
  groups : ∀ i, ¬ GroupTies env dest source i
  tree : ∀ i, GroupStays env dest source i → Below (regroupedParent env dest source) dest.root i

/-! ## One move -/

/-- In a linked tree every walk up ends. -/
theorem meetsUpwards_total (id : GroupId) {k n : Nat} {c : GroupId} (hroot : db.parentOf db.root = none)
    (hk : Depth db.parentOf db.root k c) (hn : k < n) : ∃ b, db.meetsUpwards id n (some c) = some b := by
  induction n generalizing k c with
  | zero => omega
  | succ n ih =>
    simp only [meetsUpwards]
    by_cases hc : c = id
    · exact ⟨true, by rw [if_pos hc]⟩
    rw [if_neg hc]
    change ∃ b, db.meetsUpwards id n (db.parentOf c) = some b
    cases hk with
    | root => exact ⟨false, by rw [hroot]; cases n <;> rfl⟩
    | child hp hk => rw [hp]; exact ih hk (by omega)

/-- A move goes through, or would make a cycle. -/
theorem moveGroupTo_decides {p : GroupId} (hl : Linked t) (hp : t.parentOf id = some p) (hq : q ∈ t.groups) :
    (¬ Below t.parentOf id q ∧ ∃ t', t.moveGroupTo id q = .ok (.ok t')) ∨
      (Below t.parentOf id q ∧ t.moveGroupTo id q = .ok (.error .wouldCreateCycle)) := by
  obtain ⟨g, hg, hgp⟩ := parentOf_eq_some.1 hp
  obtain ⟨gp, hgp'⟩ := (mem_groups t).1 (hl.parent_mem hp)
  obtain ⟨k, hk⟩ := (hl.rooted hq).depth
  have depth : k < t.groups.keys.card := hk.lt_card hl.root_parent fun z hz => Finmap.mem_keys.2 (by
    rcases Below.iff_parent.1 hz with rfl | ⟨_, hp, -⟩
    · exact hl.root_mem
    · exact mem_groups_of_parentOf hp)
  obtain ⟨b, hb⟩ := meetsUpwards_total id (n := t.groups.keys.card + 1) hl.root_parent hk (by omega)
  have unfolded : t.moveGroupTo id q = if b then .ok (.error .wouldCreateCycle) else
      .ok (.ok (((t.modifyGroup p fun g => { g with groups := g.groups.erase id }).modifyGroup q
        fun g => { g with groups := insert id g.groups }).modifyGroup id fun g => { g with parent := some q })) := by
    simp only [moveGroupTo, hg, hgp, hgp', hb, expect, bind, Except.bind, not_true_eq_false, hq, if_false]
    cases b <;> rfl
  rw [unfolded]
  cases b with
  | true => exact .inr ⟨below_of_meetsUpwards hb, rfl⟩
  | false => exact .inl ⟨not_below_of_meetsUpwards hb q rfl, _, rfl⟩

theorem group_modifyGroup_of {f : Group → Group} {g : Group} (h : t.group id = some g) :
    (t.modifyGroup q f).group id = some (if id = q then f g else g) := by
  rw [group_modifyGroup]
  split
  · subst_vars; rw [h]; rfl
  · exact h

/-- The group is under the root, and otherwise what it was. -/
structure MovedToRoot (id : GroupId) (t t' : Database) : Prop where
  round : GroupRound t t'
  parentOf : t'.parentOf = Function.update t.parentOf id (some t.root)
  others : ∀ i, i ≠ id → (t'.group i).map Group.bare = (t.group i).map Group.bare
  self : ∀ d, t.group id = some d → ∃ d', t'.group id = some d' ∧ d'.contentOnly = d.contentOnly ∧
    d'.times.lastModification = d.times.lastModification

theorem moveGroupTo_root {p : GroupId} (time : NaiveDateTime) (hl : Linked t) (hp : t.parentOf id = some p) :
    ∃ t₁, t.moveGroupTo id t.root = .ok (.ok t₁) ∧ MovedToRoot id t (t₁.modifyGroup id fun g =>
      { g with times := { g.times with locationChanged := some time } }) := by
  have notBelow : ¬ Below t.parentOf id t.root := by
    intro hb
    rcases Below.iff_parent.1 hb with hid | ⟨_, hr, -⟩
    · rw [← hid, hl.root_parent] at hp; cases hp
    · rw [hl.root_parent] at hr; cases hr
  obtain ⟨t₁, ht₁⟩ := ((moveGroupTo_decides hl hp hl.root_mem).resolve_right fun h => notBelow h.1).2
  have moved := GroupRound.moveGroupTo hl ht₁
  obtain ⟨-, -, hparent⟩ := moveGroupTo_linked hl ht₁
  obtain ⟨p', -, -, -, heq⟩ := moveGroupTo_ok ht₁
  refine ⟨t₁, ht₁, moved.trans (.modifyGroup moved.linked fun _ => rfl), ?_, fun i hi => ?_, fun d hd => ?_⟩
  · rw [← hparent]
    exact parentOf_modifyGroup fun _ => rfl
  · rw [group_modifyGroup, if_neg hi, heq, group_modifyGroup, if_neg hi]
    refine Eq.trans (bare_modifyGroup ?_) (bare_modifyGroup ?_)
    · intro g; rfl
    · intro g; rfl
  · rw [heq]
    refine ⟨_, group_modifyGroup_of (group_modifyGroup_of (group_modifyGroup_of (group_modifyGroup_of hd))), ?_, ?_⟩
    · simp only [if_true]
      split <;> split <;> rfl
    · simp only [if_true]
      split <;> split <;> rfl

/-! ## One round -/

theorem parentId_eq {g : Group} (hl : Linked t) (hg : t.group id = some g) : t.parentId g = .ok g.parent := by
  unfold parentId
  cases hp : g.parent with
  | none => rfl
  | some p =>
    obtain ⟨gp, hgp⟩ := (mem_groups t).1 (hl.parent_mem ((parentOf_of_group hg).trans hp))
    simp [hgp, expect]

/-- What a round does before it compares the two versions. -/
theorem followGroupMove_cases {d s : Group} (hl : Linked t) (hs : Linked source) (hroot : source.root = t.root)
    (hd : t.group id = some d) (hs' : source.group id = some s) :
    (¬ d.MovedLater s ∧ followGroupMove source t d s id = .ok (some (t, none))) ∨
    (∃ p, d.MovedLater s ∧ s.parent = some p ∧ p ∉ t.groups ∧ followGroupMove source t d s id = .ok none) ∨
    ∃ p t', d.MovedLater s ∧ s.parent = some p ∧ p ∈ t.groups ∧ MovedToRoot id t t' ∧
      followGroupMove source t d s id = .ok (some (t', some p)) := by
  have stays : ¬ d.MovedLater s → ∀ {r : Except Fault (Option (Database × Option GroupId))},
      .ok (some (t, none)) = r → (¬ d.MovedLater s ∧ r = .ok (some (t, none))) ∨
      (∃ p, d.MovedLater s ∧ s.parent = some p ∧ p ∉ t.groups ∧ r = .ok none) ∨
      ∃ p t', d.MovedLater s ∧ s.parent = some p ∧ p ∈ t.groups ∧ MovedToRoot id t t' ∧ r = .ok (some (t', some p)) :=
    fun hno _ hr => .inl ⟨hno, hr.symm⟩
  -- the one group without a parent is the root, on both sides
  have parents : d.parent ≠ s.parent → (∃ p, t.parentOf id = some p) ∧ ∃ p, s.parent = some p := by
    intro hne
    have hid : id ≠ t.root := by
      intro hid
      rw [hid] at hd hs'
      rw [← hroot] at hs'
      exact hne ((parentOf_of_group hd).symm.trans (hl.root_parent.trans
        (hs.root_parent.symm.trans (parentOf_of_group hs'))))
    obtain ⟨p, hp⟩ := hs.parent_some ((mem_groups source).2 ⟨s, hs'⟩) (hroot ▸ hid)
    exact ⟨hl.parent_some ((mem_groups t).2 ⟨d, hd⟩) hid, p, (parentOf_of_group hs').symm.trans hp⟩
  generalize hr : followGroupMove source t d s id = r
  simp only [followGroupMove, parentId_eq hl hd, parentId_eq hs hs', bind, Except.bind] at hr
  split at hr
  · rename_i hne
    split at hr
    · rename_i dlc slc hdlc hslc
      split at hr
      · rename_i hlater
        have later : d.MovedLater s := ⟨hne, dlc, slc, hdlc, hslc, hlater⟩
        obtain ⟨⟨old, hold⟩, p, hp⟩ := parents hne
        split at hr
        · rename_i hnone; rw [hp] at hnone; cases hnone
        · rename_i p hp
          split at hr
          · exact .inr (.inl ⟨p, later, hp, ‹_›, hr.symm⟩)
          · obtain ⟨t₁, ht₁, moved⟩ := moveGroupTo_root slc hl hold
            simp only [ht₁, orMergeError] at hr
            exact .inr (.inr ⟨p, _, later, hp, not_not.1 ‹_›, moved, hr.symm⟩)
      · rename_i hnot
        refine stays ?_ hr
        rintro ⟨-, dlc', slc', hdlc', hslc', hlater⟩
        rw [hdlc, Option.some.injEq] at hdlc'
        rw [hslc, Option.some.injEq] at hslc'
        exact hnot (hdlc' ▸ hslc' ▸ hlater)
    · rename_i hnone
      refine stays ?_ hr
      rintro ⟨-, dlc, slc, hdlc, hslc, -⟩
      exact hnone dlc slc hdlc hslc
  · rename_i heq
    exact stays (fun h => heq h.1) hr

/-- The round refuses the two versions. -/
def Refuses (now : NaiveDateTime) (t : Database) (d s : Group) : Prop :=
  (d.MovedLater s → ∃ p, s.parent = some p ∧ p ∈ t.groups) ∧
    d.times.lastModification.getD now = s.times.lastModification.getD Times.epoch ∧ haveGroupsDiverged d s

/-- What the round leaves, and the move it queues. -/
structure Regrouped (d s : Group) (id : GroupId) (t t' : Database) (moves moves' : List (GroupId × GroupId)) :
    Prop where
  round : GroupRound t t'
  others : ∀ i, i ≠ id → (t'.group i).map Group.bare = (t.group i).map Group.bare
  moves : (moves' = moves ∧ t'.parentOf = t.parentOf ∧ ∀ p, ¬ (d.MovedLater s ∧ s.parent = some p ∧ p ∈ t.groups)) ∨
    ∃ p, moves' = moves ++ [(id, p)] ∧ t'.parentOf = Function.update t.parentOf id (some t.root) ∧
      d.MovedLater s ∧ s.parent = some p ∧ p ∈ t.groups

theorem Regrouped.modify {d s : Group} {moves moves' : List (GroupId × GroupId)} {f : Group → Group}
    (h : Regrouped d s id t t' moves moves') (hf : ∀ g, (f g).shape = g.shape) :
    Regrouped d s id t (t'.modifyGroup id f) moves moves' := by
  have same := SameTree.modifyGroup t' id hf
  refine ⟨h.round.trans (.modifyGroup h.round.linked hf), fun i hi => ?_, by rw [same.parentOf_eq]; exact h.moves⟩
  rw [group_modifyGroup, if_neg hi]
  exact h.others i hi

theorem mergeGroupInBoth_decides (env : Env) {d s : Group} (moves : List (GroupId × GroupId)) (hl : Linked t)
    (hs : Linked source) (hroot : source.root = t.root) (hd : t.group id = some d) (hs' : source.group id = some s) :
    (¬ Refuses (env.now .groupsInBoth id) t d s ∧
      ∃ t' moves', mergeGroupInBoth env source (t, moves) id = .ok (t', moves') ∧ Regrouped d s id t t' moves moves') ∨
    (Refuses (env.now .groupsInBoth id) t d s ∧
      ∃ left, mergeGroupInBoth env source (t, moves) id =
        .error (.merge (.groupModificationTimeNotUpdated id) left)) := by
  -- once the round knows where the group goes, it compares the two versions
  have compares : ∀ t₁ move d', followGroupMove source t d s id = .ok (some (t₁, move)) → t₁.group id = some d' →
      d'.contentOnly = d.contentOnly → d'.times.lastModification = d.times.lastModification →
      (d.MovedLater s → ∃ p, s.parent = some p ∧ p ∈ t.groups) →
      Regrouped d s id t t₁ moves (moves ++ (move.map fun parent => (id, parent)).toList) →
      (¬ Refuses (env.now .groupsInBoth id) t d s ∧
        ∃ t' moves', mergeGroupInBoth env source (t, moves) id = .ok (t', moves') ∧
          Regrouped d s id t t' moves moves') ∨
      (Refuses (env.now .groupsInBoth id) t d s ∧
        ∃ left, mergeGroupInBoth env source (t, moves) id =
          .error (.merge (.groupModificationTimeNotUpdated id) left)) := by
    intro t₁ move d' hfollow hd' hcontent hlm hgoes regrouped
    have diverged : haveGroupsDiverged d' s ↔ haveGroupsDiverged d s := by unfold haveGroupsDiverged; rw [hcontent]
    generalize hr : mergeGroupInBoth env source (t, moves) id = r
    simp only [mergeGroupInBoth, hd, hs', hfollow, hd', hlm, expect, bind, Except.bind] at hr
    split at hr
    · rename_i htie
      split at hr
      · exact .inr ⟨⟨hgoes, htie, diverged.1 ‹_›⟩, t₁, hr.symm⟩
      · exact .inl ⟨fun h => ‹¬ haveGroupsDiverged d' s› (diverged.2 h.2.2), t₁, _, hr.symm, regrouped⟩
    · rename_i hne
      have accepted : ¬ Refuses (env.now .groupsInBoth id) t d s := fun h => hne h.2.1
      split at hr
      · exact .inl ⟨accepted, t₁, _, hr.symm, regrouped⟩
      · exact .inl ⟨accepted, _, _, hr.symm, regrouped.modify fun _ => rfl⟩
  rcases followGroupMove_cases hl hs hroot hd hs' with
    ⟨hno, h⟩ | ⟨p, hlater, hp, hgone, h⟩ | ⟨p, t₁, hlater, hp, hthere, moved, h⟩
  · refine compares t none d h hd rfl rfl (fun hlater => absurd hlater hno) ⟨.refl hl, fun _ _ =>
      rfl, .inl ⟨?_, rfl, ?_⟩⟩
    · exact List.append_nil moves
    · exact fun p hp => hno hp.1
  · refine .inl ⟨fun hr => ?_, t, moves, ?_, .refl hl, fun _ _ => rfl, .inl ⟨rfl, rfl, fun p' hp' => ?_⟩⟩
    · obtain ⟨p', hp', hin⟩ := hr.1 hlater
      rw [hp, Option.some.injEq] at hp'
      exact hgone (hp' ▸ hin)
    · simp only [mergeGroupInBoth, hd, hs', h, expect, bind, Except.bind]
      rfl
    · rw [hp, Option.some.injEq] at hp'
      exact hgone (hp'.2.1 ▸ hp'.2.2)
  · obtain ⟨d', hd', hcontent, hlm⟩ := moved.self d hd
    exact compares t₁ (some p) d' h hd' hcontent hlm (fun _ => ⟨p, hp, hthere⟩)
      ⟨moved.round, moved.others, .inr ⟨p, rfl, moved.parentOf, hlater, hp, hthere⟩⟩

end Database

end Keepass
