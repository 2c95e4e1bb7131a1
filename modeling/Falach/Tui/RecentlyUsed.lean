import Falach.Lib.Recency
import Falach.Tui.EntryTree
/-!
# What was used last

The recents list, the tree that is sorted by it, and the pins with the order in which they were active are what was used,
the most recent first.
-/

namespace Falach.Tui

open Keepass Database

/-- A list that is read back is as if its entries had been used one after the other, the first one last. -/
theorem takeDistinct_eq {n : Nat} {taken : List Uuid} (list : List Uuid) (htaken : taken.length < n) :
    takeDistinct n taken list = (taken ++ (recency list.reverse).filter (· ∉ taken)).take n := by
  induction list generalizing taken with
  | nil =>
    rw [takeDistinct, List.reverse_nil]
    change taken = (taken ++ []).take n
    rw [List.append_nil, List.take_of_length_le htaken.le]
  | cons uuid rest ih =>
    rw [takeDistinct, List.reverse_cons, recency_concat]
    by_cases hmem : uuid ∈ taken
    · rw [if_pos hmem, ih htaken,
        filter_touch_neg (p := fun y => decide (y ∉ taken)) (decide_eq_false (not_not.2 hmem))]
    · have hfront : ∀ l : List Uuid, taken ++ uuid :: l = taken ++ [uuid] ++ l := fun l => by
        rw [List.append_assoc, List.singleton_append]
      have hlen : (taken ++ [uuid]).length = taken.length + 1 := by rw [List.length_append, List.length_singleton]
      rw [if_neg hmem, filter_touch (p := fun y => decide (y ∉ taken)) (decide_eq_true hmem), touch,
        hfront (List.filter _ _)]
      split
      · rename_i hfull
        rw [← hfull, ← hlen, List.take_left]
      · rename_i hfree
        rw [ih (by omega), List.filter_filter]
        refine congrArg (fun l => (taken ++ [uuid] ++ l).take n) (List.filter_congr fun y _ => ?_)
        simp only [List.mem_append, List.mem_singleton, not_or, Bool.decide_and]
        exact Bool.and_comm _ _

theorem takeDistinct_recency {n : Nat} (hn : 0 < n) (list : List Uuid) :
    takeDistinct n [] list = (recency list.reverse).take n := by
  rw [takeDistinct_eq list hn, List.nil_append]
  exact congrArg (List.take n) (List.filter_eq_self.2 fun y _ => decide_eq_true List.not_mem_nil)

/-! ## The recents list -/

namespace Recents

inductive Call where
  | bump (uuid : Uuid)
  | remove (uuid : Uuid)

def call (r : Recents) : Call → Recents
  | .bump uuid => r.bump uuid
  | .remove uuid => r.remove uuid

def Call.used : Call → Option Uuid
  | .bump uuid => some uuid
  | .remove _ => none

/-- What was used, in order: what is read back counts as used before. -/
def uses (list : List Uuid) (calls : List Call) : List Uuid := list.reverse ++ calls.filterMap Call.used

variable {calls : List Call} {r : Recents}

theorem bump_order (r : Recents) (uuid : Uuid) : (r.bump uuid).order = (touch r.order uuid).take cap := rfl

/-- After any calls the list has what was used, the most recent first and at most 50, without what was removed since. -/
theorem run_sublist (list : List Uuid) (calls : List Call) :
    (calls.foldl call (fromPersisted list)).order.Sublist (recency (uses list calls)) ∧
      (calls.foldl call (fromPersisted list)).order.length ≤ cap := by
  induction calls using List.reverseRecOn with
  | nil =>
    have hread : (fromPersisted list).order = (recency list.reverse).take cap := takeDistinct_recency (by decide) list
    rw [List.foldl_nil, uses, List.filterMap_nil, List.append_nil, hread]
    exact ⟨List.take_sublist _ _, List.length_take_le _ _⟩
  | append_singleton calls c ih =>
    obtain ⟨hsub, hlen⟩ := ih
    rw [List.foldl_concat, uses, List.filterMap_append, ← List.append_assoc]
    cases c with
    | bump uuid =>
      change (Recents.order (bump _ uuid)).Sublist (recency (uses list calls ++ [uuid])) ∧ _
      rw [recency_concat, call, bump_order]
      exact ⟨(List.take_sublist _ _).trans (sublist_touch hsub), List.length_take_le _ _⟩
    | remove uuid =>
      change (List.filter _ _).Sublist (recency (uses list calls ++ [])) ∧ (List.filter _ _).length ≤ cap
      rw [List.append_nil]
      exact ⟨List.filter_sublist.trans hsub, (List.length_filter_le _ _).trans hlen⟩

/-- While nothing is removed, the list is what was used last. -/
theorem run_bumps (list : List Uuid) {calls : List Call} (h : ∀ c ∈ calls, ∃ uuid, c = .bump uuid) :
    (calls.foldl call (fromPersisted list)).order = (recency (uses list calls)).take cap := by
  induction calls using List.reverseRecOn with
  | nil =>
    have hread : (fromPersisted list).order = (recency list.reverse).take cap := takeDistinct_recency (by decide) list
    rw [List.foldl_nil, uses, List.filterMap_nil, List.append_nil, hread]
  | append_singleton calls c ih =>
    obtain ⟨uuid, rfl⟩ := h c (List.mem_append_right _ List.mem_cons_self)
    have huses : uses list (calls ++ [.bump uuid]) = uses list calls ++ [uuid] := by
      rw [uses, List.filterMap_append, ← List.append_assoc]
      rfl
    rw [List.foldl_concat, call, bump_order, ih fun c hc => h c (List.mem_append_left _ hc), huses, recency_concat,
      take_touch nodup_recency]

/-- An entry that was read back is used again. -/
theorem small_bumps : ([Call.bump 3, Call.bump 2].foldl call (fromPersisted [1, 2, 1])).order =
    (recency (uses [1, 2, 1] [.bump 3, .bump 2])).take cap :=
  run_bumps [1, 2, 1] fun c hc => by
    rcases List.mem_pair.1 hc with rfl | rfl
    · exact ⟨3, rfl⟩
    · exact ⟨2, rfl⟩

end Recents

/-! ## The tree -/

section

variable {lowercase : String → String} {db : Database} {state : TreeState}

theorem rank_eq_some {r : Recents} {uuid : Uuid} {n : Nat} (h : r.rank uuid = some n) :
    ∃ hn : n < r.order.length, r.order[n] = uuid := by
  obtain ⟨hn, hp, -⟩ := List.findIdx?_eq_some_iff_getElem.1 h
  exact ⟨hn, of_decide_eq_true hp⟩

theorem exists_rank {r : Recents} {uuid : Uuid} (h : uuid ∈ r.order) : ∃ n, r.rank uuid = some n := by
  cases hr : r.rank uuid with
  | some n => exact ⟨n, rfl⟩
  | none => exact absurd rfl (of_decide_eq_false (List.findIdx?_eq_none_iff.1 hr uuid h))

/-- Among the entries of a group, those that were used come first, the most recent of them at the top. -/
theorem childEntries_recent (lowercase : String → String) (db : Database) (list : List Uuid) (calls : List Recents.Call)
    (hsort : state.sort = .recentlyUsed) (g : Group) :
    (childEntries lowercase db state (calls.foldl Recents.call (.fromPersisted list)) g).Pairwise fun a b =>
      b ∈ (calls.foldl Recents.call (.fromPersisted list)).order →
        a ∈ (calls.foldl Recents.call (.fromPersisted list)).order ∧ UsedAfter (Recents.uses list calls) a b := by
  have hsub := (Recents.run_sublist list calls).1
  generalize calls.foldl Recents.call (.fromPersisted list) = r at hsub ⊢
  have hused : r.order.Pairwise (UsedAfter (Recents.uses list calls)) := pairwise_recency.sublist hsub
  have hnodup : (childEntries lowercase db state r g).Nodup := (childEntries_perm g).nodup_iff.2 (Enumeration.nodup_list _ _)
  unfold childEntries sortEntries at hnodup ⊢
  rw [hsort] at hnodup ⊢
  dsimp only at hnodup ⊢
  refine ((List.pairwise_insertionSort _ _).and hnodup).imp fun {a b} hab hb => ?_
  obtain ⟨hle, hne⟩ := hab
  obtain ⟨j, hj⟩ := exists_rank hb
  obtain ⟨hjlen, rfl⟩ := rank_eq_some hj
  have hlt : ∃ i, r.rank a = some i ∧ i < j := by
    rcases Prod.Lex.toLex_le_toLex.1 hle with hlt | ⟨heq, -⟩
    · dsimp only at hlt
      cases ha : r.rank a with
      | none =>
        rw [ha, hj] at hlt
        exact absurd hlt not_top_lt
      | some i =>
        rw [ha, hj] at hlt
        exact ⟨i, rfl, WithTop.coe_lt_coe.1 hlt⟩
    · refine absurd ?_ hne
      obtain ⟨_, h⟩ := rank_eq_some (heq.trans hj)
      exact h.symm
  obtain ⟨i, hi, hij⟩ := hlt
  obtain ⟨hilen, rfl⟩ := rank_eq_some hi
  exact ⟨List.getElem_mem hilen, List.pairwise_iff_getElem.1 hused i j hilen hjlen hij⟩

/-- A group with two entries. -/
def twoEntries : Group := { id := 1, parent := some 0, entries := {2, 3} }

theorem twoEntries_recent : childEntries id smallTree {} ([.bump 2, .bump 3].foldl Recents.call (.fromPersisted [])) twoEntries =
      [3, 2] ∧
    (childEntries id smallTree {} ([.bump 2, .bump 3].foldl Recents.call (.fromPersisted [])) twoEntries).Pairwise fun a b =>
      b ∈ ([Recents.Call.bump 2, .bump 3].foldl Recents.call (.fromPersisted [])).order →
        a ∈ ([Recents.Call.bump 2, .bump 3].foldl Recents.call (.fromPersisted [])).order ∧
          UsedAfter (Recents.uses [] [.bump 2, .bump 3]) a b :=
  ⟨by decide +kernel, childEntries_recent id smallTree [] [.bump 2, .bump 3] rfl twoEntries⟩

end

/-! ## The pins -/

namespace TabBar

inductive Call where
  | next
  | prev
  | jumpTo (n : Nat)
  | togglePin (uuid : Uuid)

def call (t : TabBar) : Call → TabBar
  | .next => t.next
  | .prev => t.prev
  | .jumpTo n => t.jumpTo n
  | .togglePin uuid => t.togglePin uuid

/-- The pin that is shown. -/
def shownPin (t : TabBar) : Option Uuid :=
  match t.activeTab with
  | .pinned uuid => some uuid
  | _ => none

/-- The pin that a call goes to or makes. -/
def used (t : TabBar) : Call → Option Uuid
  | .next => t.next.shownPin
  | .prev => t.prev.shownPin
  | .jumpTo n => if 1 ≤ n ∧ n ≤ t.count then (t.jumpTo n).shownPin else none
  | .togglePin uuid => if uuid ∈ t.pinned then none else some uuid

/-- The runs from pins that were read back, with the pins that were used, in order. -/
inductive Run (list : List Uuid) : List Uuid → TabBar → Prop where
  | start : Run list (withPins list).pinned (withPins list)
  | call {log : List Uuid} {t : TabBar} (c : Call) : Run list log t → Run list (log ++ (t.used c).toList) (t.call c)

/-- At most five different pins, and the order in which they were last active. -/
structure Inv (log : List Uuid) (t : TabBar) : Prop where
  nodup : t.pinned.Nodup
  few : t.pinned.length ≤ maxPins
  used : ∀ uuid ∈ t.pinned, uuid ∈ log
  activation : t.activation = (recency log).filter (· ∈ t.pinned)

variable {log : List Uuid} {t : TabBar}

theorem Inv.perm (h : Inv log t) : t.activation.Perm t.pinned := by
  rw [h.activation]
  refine (List.perm_ext_iff_of_nodup (nodup_recency.filter _) h.nodup).2 fun uuid => ?_
  rw [List.mem_filter, mem_recency, decide_eq_true_eq]
  exact and_iff_right_of_imp (h.used uuid)

theorem Inv.ordered (h : Inv log t) : t.activation.Pairwise (UsedAfter log) := by
  rw [h.activation]
  exact pairwise_recency.filter _

theorem mem_pinned_of_active {uuid : Uuid} (h : t.activeTab = .pinned uuid) : uuid ∈ t.pinned := by
  have hr : t.resolve t.active = some (.pinned uuid) := by rw [← h, activeTab, Option.some_get]
  unfold resolve at hr
  split at hr
  · cases hr
  · split at hr
    · obtain ⟨uuid', hget, heq⟩ := Option.map_eq_some_iff.1 hr
      cases heq
      exact List.mem_of_getElem? hget
    · split at hr <;> cases hr

theorem shownPin_eq_some {uuid : Uuid} : t.shownPin = some uuid ↔ t.activeTab = .pinned uuid := by
  unfold shownPin
  cases t.activeTab <;> simp

theorem recordActivation_some {uuid : Uuid} (h : t.shownPin = some uuid) :
    t.recordActivation = { t with activation := touch t.activation uuid } := by
  unfold TabBar.recordActivation
  rw [shownPin_eq_some.1 h]
  rfl

theorem recordActivation_none (h : t.shownPin = none) : t.recordActivation = t := by
  unfold TabBar.recordActivation
  split
  · rename_i uuid hactive
    cases h.symm.trans (shownPin_eq_some.2 hactive)
  · rfl

/-- What a tab is gone to for stays shown. -/
theorem shownPin_recordActivation : t.recordActivation.shownPin = t.shownPin := by
  cases h : t.shownPin with
  | none => rw [recordActivation_none h, h]
  | some uuid =>
    rw [recordActivation_some h]
    exact h

/-- A tab that is gone to. -/
theorem Inv.recordActivation (h : Inv log t) : Inv (log ++ t.shownPin.toList) t.recordActivation := by
  cases hshown : t.shownPin with
  | none =>
    rw [recordActivation_none hshown]
    change Inv (log ++ []) t
    rwa [List.append_nil]
  | some uuid =>
    have hmem := mem_pinned_of_active (shownPin_eq_some.1 hshown)
    rw [recordActivation_some hshown]
    refine ⟨h.nodup, h.few, fun u hu => List.mem_append_left _ (h.used u hu), ?_⟩
    change touch t.activation uuid = (recency (log ++ [uuid])).filter (· ∈ t.pinned)
    rw [recency_concat, filter_touch (p := fun u => decide (u ∈ t.pinned)) (decide_eq_true hmem), ← h.activation]

theorem Inv.keep (h : Inv log t) (p : Uuid → Bool) :
    t.activation.filter p = (recency log).filter (· ∈ t.pinned.filter p) := by
  rw [h.activation, List.filter_filter]
  refine List.filter_congr fun u _ => ?_
  simp only [List.mem_filter, Bool.decide_and, Bool.decide_eq_true]
  exact Bool.and_comm _ _

/-- A pin that is made after others gave way. -/
theorem Inv.pin {kept : List Uuid} {uuid : Uuid} (h : Inv log t) (hkept : kept.Sublist t.pinned) (hnew : uuid ∉ t.pinned)
    (hfew : kept.length < maxPins) {activation : List Uuid} (hactivation : activation = (recency log).filter (· ∈ kept)) :
    Inv (log ++ [uuid]) (t.repinned (kept ++ [uuid]) (uuid :: activation)) := by
  have hnot : uuid ∉ kept := fun hmem => hnew (hkept.subset hmem)
  refine ⟨?_, ?_, fun u hu => ?_, ?_⟩
  · change (kept ++ [uuid]).Nodup
    rw [← List.concat_eq_append]
    exact (h.nodup.sublist hkept).concat hnot
  · change (kept ++ [uuid]).length ≤ maxPins
    rw [List.length_append, List.length_singleton]
    exact hfew
  · rcases List.mem_append.1 hu with hu | hu
    · exact List.mem_append_left _ (h.used u (hkept.subset hu))
    · exact List.mem_append_right _ hu
  · change uuid :: activation = (recency (log ++ [uuid])).filter (· ∈ kept ++ [uuid])
    have hself : uuid ∈ kept ++ [uuid] := List.mem_append_right _ List.mem_cons_self
    rw [recency_concat, filter_touch (p := fun u => decide (u ∈ kept ++ [uuid])) (decide_eq_true hself), touch,
      hactivation, List.filter_filter]
    refine congrArg (uuid :: ·) (List.filter_congr fun u _ => ?_)
    by_cases hu : u = uuid
    · subst hu
      simp [hnot]
    · simp [hu]

/-- The pin that gives way to another when there are five. -/
theorem Inv.victim (h : Inv log t) (hfull : maxPins ≤ t.pinned.length) : ∃ v ∈ t.pinned,
    t.activation.getLast? = some v ∧ (∀ p ∈ t.pinned, p ≠ v → UsedAfter log p v) ∧
      (t.pinned.filter (· ≠ v)).length < maxPins := by
  have hlen : t.activation.length = t.pinned.length := h.perm.length_eq
  have hne : t.activation ≠ [] := fun hnil => by
    rw [hnil, List.length_nil] at hlen
    rw [← hlen] at hfull
    exact absurd hfull (by decide)
  have hsplit := List.dropLast_concat_getLast hne
  have hv : t.activation.getLast hne ∈ t.pinned := h.perm.mem_iff.1 (List.getLast_mem hne)
  refine ⟨t.activation.getLast hne, hv, List.getLast?_eq_some_getLast hne, fun p hp hpv => ?_, ?_⟩
  · have hordered := h.ordered
    rw [← hsplit, List.pairwise_append] at hordered
    refine hordered.2.2 p ?_ _ List.mem_cons_self
    have hmem := h.perm.mem_iff.2 hp
    rw [← hsplit, List.mem_append, List.mem_singleton] at hmem
    exact hmem.resolve_right hpv
  · refine lt_of_lt_of_le (List.length_filter_lt_length_iff_exists.2 ⟨_, hv, ?_⟩) h.few
    simp

theorem Inv.togglePin (h : Inv log t) (uuid : Uuid) :
    Inv (log ++ (t.used (.togglePin uuid)).toList) (t.togglePin uuid) := by
  change Inv (log ++ (if uuid ∈ t.pinned then none else some uuid).toList) _
  unfold TabBar.togglePin
  by_cases hpinned : uuid ∈ t.pinned
  · rw [if_pos hpinned, if_pos hpinned]
    change Inv (log ++ []) _
    rw [List.append_nil, h.keep]
    exact ⟨h.nodup.filter _, (List.length_filter_le _ _).trans h.few, fun u hu => h.used u (List.mem_of_mem_filter hu), rfl⟩
  · rw [if_neg hpinned, if_neg hpinned]
    change Inv (log ++ [uuid]) _
    by_cases hfull : maxPins ≤ t.pinned.length
    · obtain ⟨v, -, hlast, -, hfew⟩ := h.victim hfull
      rw [if_pos hfull, hlast]
      exact h.pin List.filter_sublist hpinned hfew (h.keep _)
    · rw [if_neg hfull]
      exact h.pin (List.Sublist.refl _) hpinned (Nat.not_le.1 hfull) h.activation

theorem Inv.call (h : Inv log t) (c : Call) : Inv (log ++ (t.used c).toList) (t.call c) := by
  -- what a tab bar goes to counts as used there
  have goes : ∀ (active : Nat) (hrange : active < t.pinned.length + 2),
      Inv (log ++ (TabBar.recordActivation { t with active := active, inRange := hrange }).shownPin.toList)
        (TabBar.recordActivation { t with active := active, inRange := hrange }) := by
    intro active hrange
    have hmoved : Inv log { t with active := active, inRange := hrange } := ⟨h.nodup, h.few, h.used, h.activation⟩
    rw [shownPin_recordActivation]
    exact hmoved.recordActivation
  cases c with
  | next => exact goes _ _
  | prev => exact goes _ _
  | jumpTo n =>
    change Inv (log ++ (if 1 ≤ n ∧ n ≤ t.count then (t.jumpTo n).shownPin else none).toList) (t.jumpTo n)
    unfold TabBar.jumpTo
    by_cases hn : 1 ≤ n ∧ n ≤ t.count
    · rw [if_pos hn, dif_pos hn]
      exact goes _ _
    · rw [if_neg hn, dif_neg hn]
      change Inv (log ++ []) t
      rwa [List.append_nil]
  | togglePin uuid => exact h.togglePin uuid

theorem Run.inv {list : List Uuid} (run : Run list log t) : Inv log t := by
  induction run with
  | start =>
    have hpinned : (withPins list).pinned = (recency list.reverse).take maxPins := takeDistinct_recency (by decide) list
    have hnodup : (withPins list).pinned.Nodup := by
      rw [hpinned]
      exact nodup_recency.sublist (List.take_sublist _ _)
    refine ⟨hnodup, ?_, fun _ hu => hu, ?_⟩
    · rw [hpinned]
      exact List.length_take_le _ _
    · rw [recency_of_nodup hnodup]
      exact (List.filter_eq_self.2 fun u hu => decide_eq_true (List.mem_reverse.1 hu)).symm
  | call c _ ih => exact ih.call c

/-- However the user goes through the tabs and pins entries, there are at most five different pins, they are known in the
order in which they were last active, and the one that gives way to a sixth is the one that was not active for
longest. -/
theorem run_pins {list : List Uuid} (run : Run list log t) :
    t.pinned.Nodup ∧ t.pinned.length ≤ maxPins ∧ t.activation.Perm t.pinned ∧ t.activation.Pairwise (UsedAfter log) ∧
      ∀ uuid, uuid ∉ t.pinned → t.pinned.length = maxPins → ∃ v ∈ t.pinned,
        (∀ p ∈ t.pinned, p ≠ v → UsedAfter log p v) ∧ (t.togglePin uuid).pinned = t.pinned.filter (· ≠ v) ++ [uuid] := by
  have h := run.inv
  refine ⟨h.nodup, h.few, h.perm, h.ordered, fun uuid hnew hfull => ?_⟩
  obtain ⟨v, hv, hlast, holdest, -⟩ := h.victim hfull.ge
  refine ⟨v, hv, holdest, ?_⟩
  unfold TabBar.togglePin
  rw [if_neg hnew, if_pos hfull.ge, hlast]
  rfl

/-- Five pins are read back, and the first is gone to. -/
theorem small_pins : ∃ log t, Run [1, 2, 3, 4, 5] log t ∧ (t.togglePin 6).pinned = [1, 3, 4, 5, 6] ∧
    ∃ v ∈ t.pinned, (∀ p ∈ t.pinned, p ≠ v → UsedAfter log p v) ∧
      (t.togglePin 6).pinned = t.pinned.filter (· ≠ v) ++ [6] := by
  have run : Run [1, 2, 3, 4, 5] _ _ := .call (.jumpTo 2) .start
  exact ⟨_, _, run, by decide +kernel, (run_pins run).2.2.2.2 6 (by decide +kernel) (by decide +kernel)⟩

end TabBar

end Falach.Tui
