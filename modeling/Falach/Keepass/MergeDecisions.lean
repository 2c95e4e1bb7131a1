import Falach.Keepass.GroupDecisions
/-!
# Which merges return

With one root on both sides and the slots in order, a merge never panics. It returns exactly if nothing on the two
sides is in its way, and otherwise it stops with an error.
-/

namespace Keepass.Database

variable {env : Env} {dest source t u : Database} {i p : GroupId} {toDelete : List GroupId}

/-! ## Before the first group round -/

/-- `g` is what the merge makes of the group `i` before the group rounds, but for the children it lists. -/
def Reaches (env : Env) (dest source : Database) (i : GroupId) (g : Group) : Prop :=
  ∃ g₀ top, (dest.group i).or (source.group i) = some g₀ ∧
    (∀ e, top = some e ↔ g₀.lastTopVisibleEntry = some e ∧ ¬ Gone env dest source e) ∧
    g.bare = ({ g₀ with lastTopVisibleEntry := top } : Group).bare

/-- The doomed groups are gone. -/
structure Cleared (env : Env) (dest source t : Database) : Prop where
  linked : Linked t
  root : t.root = dest.root
  mem : ∀ i, i ∈ t.groups ↔ GroupStays env dest source i
  parentOf : ∀ i ∈ t.groups, t.parentOf i = joinedParent dest source i
  group : ∀ i g, t.group i = some g → Reaches env dest source i g

theorem Reaches.movedLater_iff {g g₀ s : Group} {top : Option EntryId}
    (h : g.bare = ({ g₀ with lastTopVisibleEntry := top } : Group).bare) : g.MovedLater s ↔ g₀.MovedLater s := by
  have parent : g.parent = g₀.parent := (congrArg Group.parent h :)
  have times : g.times = g₀.times := (congrArg Group.times h :)
  unfold Group.MovedLater
  rw [parent, times]

/-- The round moves a group where the merge does. -/
theorem Reaches.regroups_iff {g s : Group} (h : Reaches env dest source i g) (hs : source.group i = some s) :
    Regroups env dest source i p ↔ g.MovedLater s ∧ s.parent = some p ∧ GroupStays env dest source p := by
  obtain ⟨g₀, top, hg₀, -, hbare⟩ := h
  rw [movedLater_iff hbare]
  constructor
  · rintro ⟨d, s', hd, hs', hlater, hp, hstays⟩
    rw [hd, Option.some_or, Option.some.injEq] at hg₀; subst hg₀
    rw [hs, Option.some.injEq] at hs'; subst hs'
    exact ⟨hlater, hp, hstays⟩
  · rintro ⟨hlater, hp, hstays⟩
    cases hd : dest.group i with
    | some d =>
      rw [hd, Option.some_or, Option.some.injEq] at hg₀; subst hg₀
      exact ⟨d, s, hd, hs, hlater, hp, hstays⟩
    | none =>
      -- a group that arrived is where it is in the source
      rw [hd, Option.none_or, hs, Option.some.injEq] at hg₀; subst hg₀
      exact absurd rfl hlater.1

/-- The round refuses a group where the merge does. -/
theorem Reaches.refuses_iff {g s : Group} (h : Reaches env dest source i g) (hs : source.group i = some s)
    (mem : ∀ j, j ∈ u.groups ↔ GroupStays env dest source j) (hi : GroupStays env dest source i) :
    Refuses (env.now .groupsInBoth i) u g s ↔ GroupTies env dest source i := by
  obtain ⟨g₀, top, hg₀, htop, hbare⟩ := h
  have times : g.times = g₀.times := (congrArg Group.times hbare :)
  have content : g.contentOnly = ({ g₀ with lastTopVisibleEntry := top } : Group).contentOnly :=
    (congrArg Group.contentOnly hbare :)
  unfold Refuses haveGroupsDiverged
  rw [movedLater_iff hbare, times, content]
  simp only [mem]
  constructor
  · rintro ⟨hgoes, tie, hdiv⟩
    exact ⟨g₀, s, top, hi, hg₀, hs, hgoes, htop, tie, hdiv⟩
  · rintro ⟨g₁, s', top', -, hg₁, hs', hgoes, htop', tie, hdiv⟩
    rw [hg₀, Option.some.injEq] at hg₁; subst hg₁
    rw [hs, Option.some.injEq] at hs'; subst hs'
    obtain rfl : top = top' := Option.ext fun e => (htop e).trans (htop' e).symm
    exact ⟨hgoes, tie, hdiv⟩

/-- What is homed below a doomed group does not stay. -/
theorem Opened.leaves {j : EntryId} {x : GroupId} (o : Opened env dest source toDelete u)
    (settled : EntriesMerged env source u t) (hx : x ∈ toDelete) (hj : t.homeOf j = some p)
    (hb : Below t.parentOf x p) :
    ¬ EntryStays env dest source j := by
  obtain ⟨e, he, rfl⟩ := homeOf_eq_some.1 hj
  rintro ⟨q, hlands, hno⟩
  obtain ⟨e', he', rfl⟩ := lands_iff.1 hlands
  have same := (o.settles settled j e').2 he'
  rw [he, Option.some.injEq] at same; subst same
  exact hno ((o.sinks_iff settled (settled.home he)).1 ⟨x, hx, hb⟩)

/-- The doomed groups go without a panic. -/
theorem cleared_total {joined settled : Database} (hs : Linked source) (hroot : source.root = dest.root)
    (o : Opened env dest source toDelete u) (hsettled : mergeEntries env source u = .ok settled)
    (hjoined : Joined env dest source u joined) (trims : Trims joined settled)
    (ready : Ready (fun x => ¬ EntryStays env dest source x) settled) :
    ∃ felled, deleteGroups env toDelete settled = .ok felled ∧ Cleared env dest source felled := by
  have merged := mergeEntries_merged o.linked hs hsettled
  obtain ⟨felled, hfelled, hl, gone⟩ := deleteGroups_total env merged.linked o.nodup (fun x hx => by
      have hdoom := (o.queued x).1 hx
      rw [merged.mem, o.joins, merged.root, o.root]
      refine ⟨.inl hdoom.mem, fun hr => hdoom.1 ?_⟩
      rw [hr, ← hroot]
      exact hs.root_mem) ready fun x hx j q hj hb => o.leaves merged hx hj hb
  refine ⟨felled, hfelled, hl, ?_, o.mem_felled merged gone, fun i hi => ?_, fun i g hg => ?_⟩
  · rw [gone.root, merged.root, o.root]
  · have hi' : i ∈ u.groups := (merged.mem i).1 ((gone.mem i).1 hi).1
    rw [gone.parentOf i hi, merged.parentOf, o.parentOf i hi']
  · have stays : ∀ e, e ∈ felled.entries ↔ EntryStays env dest source e := fun e => by
      rw [mem_entries]
      simp only [o.felled_entry merged gone, EntryStays, lands_iff]
      constructor
      · rintro ⟨e, he, hno⟩
        exact ⟨_, ⟨e, he, rfl⟩, hno⟩
      · rintro ⟨_, ⟨e, he, rfl⟩, hno⟩
        exact ⟨e, he, hno⟩
    obtain ⟨g₁, hg₁, htrim⟩ := (trims.trans (deleteGroups_trims hfelled)).group i g hg
    have hi : i ∈ u.groups := (hjoined.mem i).1 ((mem_groups joined).2 ⟨g₁, hg₁⟩)
    have hbare := (hjoined.bare i).trans (o.group i hi)
    rw [hg₁, Option.map_some] at hbare
    obtain ⟨g₀, hg₀, hbare⟩ := Option.map_eq_some_iff.1 hbare.symm
    refine ⟨g₀, g₀.lastTopVisibleEntry.filter fun e => e ∉ joined.entries ∨ e ∈ felled.entries, hg₀, fun e => ?_, ?_⟩
    · rw [Option.filter_eq_some_iff, decide_eq_true_iff, stays, hjoined.gone_iff]
      tauto
    · rw [htrim, ← hbare]
      rfl

/-! ## The group rounds -/

/-- The groups of `t` that wait for a queued move are under the root, and the others where `parent` has them. -/
def Waiting (parent : GroupId → Option GroupId) (moves : List (GroupId × GroupId)) (t : Database) : Prop :=
  ∀ i, t.parentOf i = if i ∈ moves.map Prod.fst then some t.root else parent i

theorem Waiting.append {t' : Database} {moves : List (GroupId × GroupId)} {parent : GroupId → Option GroupId}
    (h : Waiting parent moves t) (hroot : t'.root = t.root)
    (hparent : t'.parentOf = Function.update t.parentOf i (some t.root)) : Waiting parent (moves ++ [(i, p)]) t' := by
  intro j
  rw [hparent, Function.update_apply, h j, hroot]
  have mem : j ∈ (moves ++ [(i, p)]).map Prod.fst ↔ j ∈ moves.map Prod.fst ∨ j = i := by
    rw [List.map_append, List.mem_append, List.map_singleton, List.mem_singleton]
  by_cases hj : j = i
  · rw [if_pos hj, if_pos (mem.2 (.inr hj))]
  · rw [if_neg hj]
    exact if_congr (mem.trans (or_iff_left hj)).symm rfl rfl

/-- What the group rounds leave of `t`, with `rest` still to come. -/
structure Rounds (env : Env) (dest source t : Database) (rest : List GroupId) (u : Database)
    (moves : List (GroupId × GroupId)) : Prop where
  round : GroupRound t u
  reaches : ∀ i ∈ rest, ∀ g, u.group i = some g → Reaches env dest source i g
  waiting : Waiting t.parentOf moves u
  nodup : (moves.map Prod.fst).Nodup
  queued : ∀ m ∈ moves, m.1 ∉ rest ∧ Regroups env dest source m.1 m.2
  regroups : ∀ i p, i ∈ t.groups → i ∉ rest → Regroups env dest source i p → (i, p) ∈ moves
  accepted : ∀ i, i ∈ t.groups → i ∉ rest → ¬ GroupTies env dest source i

theorem Regroups.mem_source (h : Regroups env dest source i p) : i ∈ source.groups := by
  obtain ⟨-, s, -, hs, -⟩ := h
  exact (mem_groups source).2 ⟨s, hs⟩

theorem GroupTies.mem_source (h : GroupTies env dest source i) : i ∈ source.groups := by
  obtain ⟨-, s, -, -, -, hs, -⟩ := h
  exact (mem_groups source).2 ⟨s, hs⟩

theorem Rounds.start (c : Cleared env dest source t) :
    Rounds env dest source t ((env.ids .groupsInBoth).list (t.groups.keys ∩ source.groups.keys)) t [] := by
  have hmem : ∀ i, i ∈ (env.ids .groupsInBoth).list (t.groups.keys ∩ source.groups.keys) ↔
      i ∈ t.groups ∧ i ∈ source.groups := fun i => by
    rw [(env.ids .groupsInBoth).mem_list, Finset.mem_inter, Finmap.mem_keys, Finmap.mem_keys]
  refine ⟨.refl c.linked, fun i _ => c.group i, fun i => ?_, List.nodup_nil, fun m hm => ?_, fun i p hi hno h => ?_,
    fun i hi hno h => ?_⟩
  · rw [List.map_nil, if_neg List.not_mem_nil]
  · exact absurd hm List.not_mem_nil
  · exact absurd ((hmem i).2 ⟨hi, h.mem_source⟩) hno
  · exact absurd ((hmem i).2 ⟨hi, h.mem_source⟩) hno

/-- One group round. -/
theorem Rounds.next {rest : List GroupId} {moves : List (GroupId × GroupId)}
    (h : Rounds env dest source t (i :: rest) u moves) (c : Cleared env dest source t) (hs : Linked source)
    (hroot : source.root = dest.root) (hn : i ∉ rest)
    (hi : i ∈ t.groups) (hi' : i ∈ source.groups) :
    (∃ st, mergeGroupInBoth env source (u, moves) i = .ok st ∧ Rounds env dest source t rest st.1 st.2) ∨
      ∃ e left, mergeGroupInBoth env source (u, moves) i = .error (.merge e left) ∧ GroupTies env dest source i := by
  obtain ⟨g, hg⟩ := (mem_groups u).1 ((h.round.mem i).2 hi)
  obtain ⟨s, hs'⟩ := (mem_groups source).1 hi'
  have reaches := h.reaches i List.mem_cons_self g hg
  have mem : ∀ j, j ∈ u.groups ↔ GroupStays env dest source j := fun j => (h.round.mem j).trans (c.mem j)
  have root : source.root = u.root := by rw [h.round.root, c.root, hroot]
  have refuses : Refuses (env.now .groupsInBoth i) u g s ↔ GroupTies env dest source i :=
    reaches.refuses_iff hs' mem ((c.mem i).1 hi)
  have notYet : i ∉ moves.map Prod.fst := fun hin => by
    obtain ⟨m, hm, rfl⟩ := List.mem_map.1 hin
    exact (h.queued m hm).1 List.mem_cons_self
  rcases mergeGroupInBoth_decides env moves h.round.linked hs root hg hs' with
    ⟨hno, u', moves', hu', step⟩ | ⟨hrefuses, left, hleft⟩
  · refine .inl ⟨(u', moves'), hu', ?_⟩
    have reaches' : ∀ j ∈ rest, ∀ g', u'.group j = some g' → Reaches env dest source j g' := by
      intro j hj g' hg'
      have hji : j ≠ i := by rintro rfl; exact hn hj
      have hbare := step.others j hji
      rw [hg', Option.map_some] at hbare
      obtain ⟨g₁, hg₁, hbare⟩ := Option.map_eq_some_iff.1 hbare.symm
      obtain ⟨g₀, top, hg₀, htop, hb⟩ := h.reaches j (List.mem_cons_of_mem i hj) g₁ hg₁
      exact ⟨g₀, top, hg₀, htop, hbare.symm.trans hb⟩
    have accepted' : ∀ j, j ∈ t.groups → j ∉ rest → ¬ GroupTies env dest source j := by
      intro j hj hjr
      by_cases hji : j = i
      · rw [hji]; exact fun hties => hno (refuses.2 hties)
      · exact h.accepted j hj fun hin => (List.mem_cons.1 hin).elim hji hjr
    have queued : ∀ m ∈ moves, m.1 ∉ rest ∧ Regroups env dest source m.1 m.2 := fun m hm =>
      ⟨fun hin => (h.queued m hm).1 (List.mem_cons_of_mem i hin), (h.queued m hm).2⟩
    -- the round queues no move for the group, or the one it is to make
    rcases step.moves with ⟨rfl, hparent, hnone⟩ | ⟨p, rfl, hparent, hlater, hp, hthere⟩
    · refine ⟨h.round.trans step.round, reaches', fun j => ?_, h.nodup, queued, fun j q hj hjr hjq => ?_, accepted'⟩
      · rw [hparent, step.round.root]; exact h.waiting j
      · by_cases hji : j = i
        · subst hji
          obtain ⟨hlater, hq, hstays⟩ := (reaches.regroups_iff hs').1 hjq
          exact absurd ⟨hlater, hq, (mem q).2 hstays⟩ (hnone q)
        · exact h.regroups j q hj (fun hin => (List.mem_cons.1 hin).elim hji hjr) hjq
    · have moves_i : Regroups env dest source i p := (reaches.regroups_iff hs').2 ⟨hlater, hp, (mem p).1 hthere⟩
      refine ⟨h.round.trans step.round, reaches', h.waiting.append step.round.root hparent, ?_, fun m hm => ?_,
        fun j q hj hjr hjq => ?_, accepted'⟩
      · rw [List.map_append, List.nodup_append]
        refine ⟨h.nodup, List.nodup_singleton i, fun a ha b hb => ?_⟩
        rw [List.map_singleton, List.mem_singleton] at hb
        subst hb
        rintro rfl
        exact notYet ha
      · rcases List.mem_append.1 hm with hm | hm
        · exact queued m hm
        · rw [List.mem_singleton.1 hm]; exact ⟨hn, moves_i⟩
      · by_cases hji : j = i
        · subst hji
          obtain ⟨-, hq, -⟩ := (reaches.regroups_iff hs').1 hjq
          rw [hp, Option.some.injEq] at hq
          exact List.mem_append_right _ (List.mem_singleton.2 (by rw [hq]))
        · exact List.mem_append_left _
            (h.regroups j q hj (fun hin => (List.mem_cons.1 hin).elim hji hjr) hjq)
  · exact .inr ⟨_, left, hleft, refuses.1 hrefuses⟩

/-! ## The queued moves -/

theorem regroupedParent_of (h : Regroups env dest source i p) : regroupedParent env dest source i = some p := by
  obtain ⟨-, s, -, hs, -, hp, -⟩ := id h
  unfold regroupedParent
  rw [if_pos ⟨p, h⟩, parentOf_of_group hs, hp]

theorem regroupedParent_root (hd : Linked dest) (hs : Linked source) (hroot : source.root = dest.root) :
    regroupedParent env dest source dest.root = none := by
  unfold regroupedParent joinedParent
  rw [if_pos hd.root_mem, hd.root_parent]
  split
  · rw [← hroot]; exact hs.root_parent
  · rfl

/-- Where the groups go that the rounds left waiting. -/
theorem Rounds.done {moves : List (GroupId × GroupId)} (h : Rounds env dest source t [] u moves)
    (c : Cleared env dest source t) :
    Waiting (fun i => if i ∈ t.groups then regroupedParent env dest source i else none)
      moves u := by
  intro i
  rw [h.waiting i]
  split
  · rfl
  · rename_i hno
    dsimp only
    by_cases hi : i ∈ t.groups
    · rw [if_pos hi, c.parentOf i hi]
      unfold regroupedParent
      rw [if_neg]
      rintro ⟨p, hp⟩
      exact hno (List.mem_map.2 ⟨_, h.regroups i p hi List.not_mem_nil hp, rfl⟩)
    · rw [if_neg hi]
      unfold Database.parentOf
      rw [show t.group i = none from Finmap.notMem_iff_lookup.1 hi]
      rfl

/-- A move that would make a cycle now would make one in the end. -/
theorem Waiting.cycle {parent : GroupId → Option GroupId} {moves : List (GroupId × GroupId)} {x y : GroupId}
    (h : Waiting parent moves t) (hr : t.parentOf t.root = none) (hx : x ≠ t.root) (hb : Below t.parentOf x y) :
    Below parent x y := by
  induction hb with
  | self => exact .self
  | @child y q hq hb ih =>
    have hy := h y
    split at hy
    · -- what waits is under the root, which is below nothing else
      rw [hq, Option.some.injEq] at hy; subst hy
      rcases Below.iff_parent.1 hb with hroot | ⟨_, hp, -⟩
      · exact absurd hroot.symm hx
      · rw [hr] at hp; cases hp
    · exact .child (hy.symm.trans hq) ih

/-- The moves go through exactly if the parents that the groups end up with are those of a tree. -/
theorem moves_decide {moves : List (GroupId × GroupId)} (h : Rounds env dest source t [] u moves)
    (c : Cleared env dest source t) (hd : Linked dest) (hs : Linked source) (hroot : source.root = dest.root) :
    (∃ v, moves.foldlM runMove u = .ok v ∧
      ∀ i, GroupStays env dest source i → Below (regroupedParent env dest source) dest.root i) ∨
    ∃ fault, moves.foldlM runMove u = .error fault ∧ (∃ e left, fault = .merge e left) ∧
      ¬ ∀ i, GroupStays env dest source i → Below (regroupedParent env dest source) dest.root i := by
  have ends : regroupedParent env dest source dest.root = none := regroupedParent_root hd hs hroot
  let final := fun i => if i ∈ t.groups then regroupedParent env dest source i else none
  have lift : ∀ {x y}, Below final x y → Below (regroupedParent env dest source) x y := fun hb =>
    hb.mono fun z q hz => by
      simp only [final] at hz
      split at hz
      · exact hz
      · cases hz
  -- the groups still to move wait under the root, the others are where they end up
  rcases Loop.foldlM_decides (l := moves) (s := u) (f := runMove)
      (fun rest v => GroupRound t v ∧ Waiting final rest v ∧ rest <:+ moves)
      (fun fault => (∃ e left, fault = .merge e left) ∧
        ¬ ∀ i, GroupStays env dest source i → Below (regroupedParent env dest source) dest.root i)
      (fun m rest v hsuf hv => by
        obtain ⟨round, waiting, -⟩ := hv
        obtain ⟨i, p⟩ := m
        obtain ⟨-, hregroups⟩ := h.queued (i, p) (hsuf.subset List.mem_cons_self)
        have hstays : GroupStays env dest source p := by obtain ⟨_, _, _, _, _, _, hstays⟩ := hregroups; exact hstays
        have hunder : v.parentOf i = some v.root := by
          rw [waiting i, if_pos (List.mem_map.2 ⟨(i, p), List.mem_cons_self, rfl⟩)]
        have hroot' : i ≠ v.root := by
          intro hr
          rw [hr, round.linked.root_parent] at hunder; cases hunder
        have hi : i ∈ t.groups := (round.mem i).1 (mem_groups_of_parentOf hunder)
        have hn : i ∉ rest.map Prod.fst := (List.nodup_cons.1 (h.nodup.sublist (hsuf.sublist.map Prod.fst))).1
        rcases moveGroupTo_decides (q := p) round.linked hunder ((round.mem p).2 ((c.mem p).2 hstays)) with
          ⟨-, v', hv'⟩ | ⟨hb, hcycle⟩
        · refine .inl ⟨v', by simp only [runMove, hv', bind, Except.bind, orMergeError], ?_⟩
          obtain ⟨-, -, hparent⟩ := moveGroupTo_linked round.linked hv'
          have hround := GroupRound.moveGroupTo round.linked hv'
          refine ⟨round.trans hround, fun j => ?_, (List.suffix_cons _ _).trans hsuf⟩
          rw [hparent, Function.update_apply, waiting j, hround.root]
          by_cases hj : j = i
          · subst hj
            rw [if_pos rfl, if_neg hn]
            exact ((if_pos hi).trans (regroupedParent_of hregroups)).symm
          · rw [if_neg hj, List.map_cons]
            exact if_congr (List.mem_cons.trans (or_iff_right hj)) rfl rfl
        · -- the move would close a cycle, and the groups on it are all where they end up
          refine .inr ⟨.merge (.moveGroupError .wouldCreateCycle) v, ?_, ⟨_, v, rfl⟩, fun htree => ?_⟩
          · simp only [runMove, hcycle, bind, Except.bind, orMergeError]
          · exact Below.acyclic ends (htree i ((c.mem i).1 hi)) p (regroupedParent_of hregroups)
              (lift (waiting.cycle round.linked.root_parent hroot' hb)))
      ⟨h.round, h.done c, List.suffix_refl _⟩ with
    ⟨v, hv, round, waiting, -⟩ | ⟨fault, hfault, hF⟩
  · refine .inl ⟨v, hv, fun i hi => ?_⟩
    have hrooted := round.linked.rooted ((round.mem i).2 ((c.mem i).2 hi))
    rw [round.root, c.root] at hrooted
    refine lift (hrooted.mono fun z q hz => ?_)
    rw [waiting z, List.map_nil, if_neg List.not_mem_nil] at hz
    exact hz
  · exact .inr ⟨fault, hfault, hF⟩

/-! ## The whole merge -/

/-- A merge of two databases with one root returns if nothing is in its way, and otherwise stops with an error. It
does not panic. -/
theorem merge_decides (env : Env) (hd : Linked dest) (hs : Linked source) (hroot : source.root = dest.root)
    (removable : Removable env dest source) :
    (Settleable env dest source ∧ ∃ t, merge env dest source = .ok t) ∨
      (¬ Settleable env dest source ∧ ∃ e left, merge env dest source = .error (.merge e left)) := by
  obtain ⟨grown, u, toDelete, hgrown, hu, opened⟩ := opened_total env hd hs hroot
  rcases mergeEntries_decides opened hs removable with
    ⟨settled, joined, hsettled, noTies, ready, hjoined, trims⟩ | ⟨e, left, hfault, x, hties⟩
  case inr =>
    refine .inr ⟨fun h => h.entries x hties, e, left, ?_⟩
    simp only [merge, hgrown, hu, hfault, bind, Except.bind]
  obtain ⟨felled, hfelled, cleared⟩ := cleared_total hs hroot opened hsettled hjoined trims ready
  obtain ⟨r, hr⟩ := (mem_groups felled).1 cleared.linked.root_mem
  have whole : ∀ {res}, (((env.ids .groupsInBoth).list (felled.groups.keys ∩ source.groups.keys)).foldlM
      (mergeGroupInBoth env source) (felled, []) >>= fun st => st.2.foldlM runMove st.1) = res →
      merge env dest source = res := fun h => by
    simp only [merge, hgrown, hu, hsettled, hfelled, hr, expect, bind, Except.bind]
    exact h
  have hmem : ∀ i, i ∈ (env.ids .groupsInBoth).list (felled.groups.keys ∩ source.groups.keys) ↔
      i ∈ felled.groups ∧ i ∈ source.groups := fun i => by
    rw [(env.ids .groupsInBoth).mem_list, Finset.mem_inter, Finmap.mem_keys, Finmap.mem_keys]
  rcases Loop.foldlM_decides (f := mergeGroupInBoth env source) (s := (felled, []))
      (l := (env.ids .groupsInBoth).list (felled.groups.keys ∩ source.groups.keys))
      (fun rest st => Rounds env dest source felled rest st.1 st.2)
      (fun fault => ∃ e left i, fault = .merge e left ∧ GroupTies env dest source i)
      (fun i rest st hsuf hst => by
        obtain ⟨u, moves⟩ := st
        obtain ⟨hi, hi'⟩ := (hmem i).1 (hsuf.subset List.mem_cons_self)
        have hn := (List.nodup_cons.1 (((env.ids .groupsInBoth).nodup_list _).sublist hsuf.sublist)).1
        refine (hst.next cleared hs hroot hn hi hi').imp_right ?_
        rintro ⟨e, left, herr, hties⟩
        exact ⟨_, herr, e, left, i, rfl, hties⟩)
      (.start cleared) with ⟨⟨u, moves⟩, hrounds, rounds⟩ | ⟨fault, hfault, e, left, i, rfl, hties⟩
  · rcases moves_decide rounds cleared hd hs hroot with ⟨v, hv, tree⟩ | ⟨fault, hfault, ⟨e, left, rfl⟩, noTree⟩
    · refine .inl ⟨⟨noTies, fun i hties => ?_, tree⟩, v, whole ?_⟩
      · obtain ⟨-, -, -, stays, -⟩ := id hties
        exact rounds.accepted i ((cleared.mem i).2 stays) List.not_mem_nil hties
      · rw [hrounds]; exact hv
    · refine .inr ⟨fun h => noTree h.tree, e, left, whole ?_⟩
      rw [hrounds]; exact hfault
  · refine .inr ⟨fun h => h.groups i hties, e, left, whole ?_⟩
    rw [hfault]; rfl

/-! ## Two databases of one shape -/

namespace Alike

variable (h : Alike dest source)

include h

theorem not_sinks (i : GroupId) : ¬ Sinks env dest source i := by
  rintro ⟨x, hx, -⟩
  have spared := h.spared x hx.mem hx.1
  obtain ⟨-, _, deletion, _, -, hdel, -⟩ := hx
  rw [spared] at hdel; cases hdel

theorem stays {i : EntryId} (hi : i ∈ dest.entries) : EntryStays env dest source i := by
  obtain ⟨d, hd⟩ := (mem_entries dest).1 hi
  obtain ⟨s, hs⟩ := (mem_entries source).1 ((h.entries i).1 hi)
  obtain ⟨present, hp⟩ : ∃ present : Bool, present = true ↔ Joins env dest source s.parent := by
    by_cases hj : Joins env dest source s.parent
    · exact ⟨true, iff_of_true rfl hj⟩
    · exact ⟨false, iff_of_false nofun hj⟩
  exact ⟨_, .both hd hs hp, h.not_sinks _⟩

theorem not_leavesSlot (x : EntryId) (c : AttachmentId) : ¬ LeavesSlot env dest source x c :=
  Database.not_leavesSlot (fun id hid => h.stays (hid.elim (fun hd => hd) (h.entries id).2)) x c

theorem not_gone (e : EntryId) : ¬ Gone env dest source e := by
  rintro ⟨hgone, hd | ⟨_, ⟨_, hs, -, -⟩ | ⟨hd, -, -⟩ | ⟨hd, -, -⟩⟩⟩
  · exact hgone (h.stays hd)
  · exact hgone (h.stays ((h.entries e).2 ((mem_entries source).2 ⟨_, hs⟩)))
  · exact hgone (h.stays ((mem_entries dest).2 ⟨_, hd⟩))
  · exact hgone (h.stays ((mem_entries dest).2 ⟨_, hd⟩))

theorem not_groupTies (i : GroupId) : ¬ GroupTies env dest source i := by
  rintro ⟨d, s, top, -, hd, hs, -, htop, -, hdiv⟩
  obtain rfl : top = d.lastTopVisibleEntry := Option.ext fun e => (htop e).trans (and_iff_left (h.not_gone e))
  cases hdest : dest.group i with
  | some g =>
    rw [hdest, Option.some_or, Option.some.injEq] at hd; subst hd
    exact (h.agree i g s hdest hs).2 hdiv
  | none =>
    rw [hdest, Option.none_or, hs, Option.some.injEq] at hd; subst hd
    exact hdiv rfl

/-- Nothing but a tie of entries can be in the way of the merge. -/
theorem settleable (hd : Linked dest) (hs : Linked source) (noTies : ∀ i, ¬ EntryTies env dest source i) :
    Settleable env dest source := by
  refine ⟨noTies, h.not_groupTies, fun i hi => ?_⟩
  obtain ⟨_, u, _, -, -, opened⟩ := opened_total env hd hs h.root
  have rooted := opened.linked.rooted ((opened.joins i).2 hi.1)
  rw [opened.root] at rooted
  refine rooted.mono fun z q hz => ?_
  unfold regroupedParent
  rw [if_neg, ← opened.parentOf z (mem_groups_of_parentOf hz), hz]
  rintro ⟨p, d, s, hdz, hsz, hlater, -⟩
  exact hlater.1 (h.agree z d s hdz hsz).1

end Alike

end Keepass.Database
