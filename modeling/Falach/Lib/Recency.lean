import Mathlib.Data.List.Nodup
import Mathlib.Data.List.Infix
import Mathlib.Data.List.Perm.Basic
/-!
# The most recent first

A list to whose front what is used moves. After any uses it has what was used in the order of the last uses, and so has
what is left of it when some of it is forgotten or cut off at the end.
-/

universe u

variable {κ : Type u} {log l l' : List κ} {x y : κ} {n : Nat}

/-- `x` was used after every use of `y`. -/
def UsedAfter (log : List κ) (x y : κ) : Prop := x ≠ y ∧ ∃ before after, log = before ++ x :: after ∧ y ∉ after

theorem UsedAfter.later (h : UsedAfter log x y) {z : κ} (hz : z ≠ y) : UsedAfter (log ++ [z]) x y := by
  obtain ⟨hne, before, after, rfl, hy⟩ := h
  refine ⟨hne, before, after ++ [z], by rw [List.append_assoc, List.cons_append], ?_⟩
  rw [List.mem_append, List.mem_singleton, not_or]
  exact ⟨hy, hz.symm⟩

theorem usedAfter_last (h : x ≠ y) : UsedAfter (log ++ [x]) x y := ⟨h, log, [], rfl, List.not_mem_nil⟩

/-- Of two, only one was used after the other. -/
theorem UsedAfter.asymm (h : UsedAfter log x y) : ¬ UsedAfter log y x := by
  rintro ⟨-, before', after', heq', hx⟩
  obtain ⟨hne, before, after, heq, hy⟩ := h
  rw [heq] at heq'
  rcases List.append_eq_append_iff.1 heq' with ⟨between, -, hrest⟩ | ⟨between, -, hrest⟩
  · cases between with
    | nil => exact hne (List.cons.inj hrest).1
    | cons z between =>
      rw [(List.cons.inj hrest).2] at hy
      exact hy (List.mem_append_right _ List.mem_cons_self)
  · cases between with
    | nil => exact hne (List.cons.inj hrest).1.symm
    | cons z between =>
      rw [(List.cons.inj hrest).2] at hx
      exact hx (List.mem_append_right _ List.mem_cons_self)

/-! ## One use -/

variable [DecidableEq κ]

/-- `x` is used. -/
def touch (l : List κ) (x : κ) : List κ := x :: l.filter (· ≠ x)

@[simp] theorem mem_touch : y ∈ touch l x ↔ y = x ∨ y ∈ l := by
  by_cases h : y = x <;> simp [touch, h]

theorem nodup_touch (h : l.Nodup) : (touch l x).Nodup :=
  List.nodup_cons.2 ⟨fun hx => of_decide_eq_true (List.mem_filter.1 hx).2 rfl, h.filter _⟩

theorem perm_touch (h : l.Nodup) (hx : x ∈ l) : (touch l x).Perm l := by
  refine (List.perm_ext_iff_of_nodup (nodup_touch h) h).2 fun y => ?_
  rw [mem_touch]
  exact or_iff_right_of_imp fun hy => hy ▸ hx

theorem sublist_touch (h : l.Sublist l') : (touch l x).Sublist (touch l' x) := (h.filter _).cons_cons x

/-- What is kept of a list does not hinder a use. -/
theorem filter_touch {p : κ → Bool} (hx : p x = true) : (touch l x).filter p = touch (l.filter p) x := by
  rw [touch, touch, List.filter_cons_of_pos hx, List.filter_comm]

theorem filter_touch_neg {p : κ → Bool} (hx : p x = false) : (touch l x).filter p = l.filter p := by
  rw [touch, List.filter_cons_of_neg (by rw [hx]; exact Bool.noConfusion), List.filter_filter]
  refine List.filter_congr fun y _ => ?_
  by_cases hy : y = x
  · rw [hy, hx, Bool.false_and]
  · rw [decide_eq_true hy, Bool.and_true]

theorem length_filter_ne (h : l.Nodup) : l.length ≤ (l.filter (· ≠ x)).length + 1 := by
  have herase : l.filter (· ≠ x) = l.erase x := by
    rw [h.erase_eq_filter]
    exact List.filter_congr fun y _ => by by_cases hy : y = x <;> simp [hy]
  rw [herase, List.length_erase]
  split <;> omega

/-- What is cut off at the end before a use would be cut off after it. -/
theorem take_touch (h : l.Nodup) : (touch (l.take n) x).take n = (touch l x).take n := by
  cases n with
  | zero => rfl
  | succ n =>
    have hsplit : l.filter (· ≠ x) = (l.take (n + 1)).filter (· ≠ x) ++ (l.drop (n + 1)).filter (· ≠ x) := by
      rw [← List.filter_append, List.take_append_drop]
    rw [touch, touch, List.take_succ_cons, List.take_succ_cons, hsplit]
    refine congrArg (x :: ·) ?_
    have hlen := length_filter_ne (x := x) (h.sublist (List.take_sublist (n + 1) l))
    by_cases hn : n ≤ ((l.take (n + 1)).filter (· ≠ x)).length
    · rw [List.take_append_of_le_length hn]
    · -- nothing was cut off
      rw [List.length_take] at hlen
      rw [List.drop_eq_nil_of_le (by omega), List.filter_nil, List.append_nil]

/-! ## All uses -/

/-- What was used, the most recent first; the log is in the order of the uses. -/
def recency (log : List κ) : List κ := log.foldl touch []

theorem recency_concat (log : List κ) (x : κ) : recency (log ++ [x]) = touch (recency log) x := List.foldl_concat _ _ _ _

@[simp] theorem mem_recency : x ∈ recency log ↔ x ∈ log := by
  induction log using List.reverseRecOn with
  | nil => rfl
  | append_singleton log y ih => rw [recency_concat, mem_touch, ih, List.mem_append, List.mem_singleton, or_comm]

theorem nodup_recency : (recency log).Nodup := by
  induction log using List.reverseRecOn with
  | nil => exact List.nodup_nil
  | append_singleton log y ih => rw [recency_concat]; exact nodup_touch ih

/-- The order is that of the last uses. -/
theorem pairwise_recency : (recency log).Pairwise (UsedAfter log) := by
  induction log using List.reverseRecOn with
  | nil => exact .nil
  | append_singleton log x ih =>
    rw [recency_concat, touch, List.pairwise_cons]
    refine ⟨fun y hy => usedAfter_last fun heq => of_decide_eq_true (List.mem_filter.1 hy).2 heq.symm, ?_⟩
    refine (ih.filter _).imp_of_mem fun _ hy h => h.later ?_
    exact fun heq => of_decide_eq_true (List.mem_filter.1 hy).2 heq.symm

/-- What is used once each. -/
theorem recency_of_nodup (h : log.Nodup) : recency log = log.reverse := by
  induction log using List.reverseRecOn with
  | nil => rfl
  | append_singleton log x ih =>
    obtain ⟨hlog, -, hx⟩ := List.nodup_append.1 h
    have hkept : log.reverse.filter (· ≠ x) = log.reverse :=
      List.filter_eq_self.2 fun y hy => decide_eq_true (hx y (List.mem_reverse.1 hy) x List.mem_cons_self)
    rw [recency_concat, touch, ih hlog, hkept, List.reverse_append]
    rfl
