import Mathlib.Data.List.Sort
/-!
# Pairing up two lists

Two lists are walked side by side: at each place both elements are kept if they are apart, and only the first one
otherwise. What the longer list has left over is kept.
-/

universe u

variable {α : Type u}

/-- The two lists side by side. -/
def pairUp (apart : α → α → Prop) [DecidableRel apart] : List α → List α → List α
  | [], ys => ys
  | x :: xs, [] => x :: xs
  | x :: xs, y :: ys => if apart x y then x :: y :: pairUp apart xs ys else x :: pairUp apart xs ys

section

variable {apart : α → α → Prop} [DecidableRel apart]

@[simp] theorem pairUp_nil (xs : List α) : pairUp apart xs [] = xs := by
  cases xs <;> rfl

/-- The first list is all kept. -/
theorem mem_pairUp_left {xs ys : List α} {x : α} (hx : x ∈ xs) : x ∈ pairUp apart xs ys := by
  induction xs generalizing ys with
  | nil => cases hx
  | cons x' xs ih =>
    cases ys with
    | nil => exact hx
    | cons y ys =>
      rw [pairUp]
      rcases List.mem_cons.1 hx with rfl | hx
      · split <;> exact List.mem_cons_self
      · have := @ih ys hx
        split <;> simp [this]

/-- An element of the second list is kept, or one of the first that it is not apart from. -/
theorem mem_pairUp_right {xs ys : List α} {y : α} (hy : y ∈ ys) :
    y ∈ pairUp apart xs ys ∨ ∃ x ∈ xs, ¬ apart x y := by
  induction xs generalizing ys with
  | nil => exact .inl hy
  | cons x xs ih =>
    cases ys with
    | nil => cases hy
    | cons y' ys =>
      rw [pairUp]
      rcases List.mem_cons.1 hy with rfl | hy
      · split
        · exact .inl (by simp)
        · exact .inr ⟨x, List.mem_cons_self, ‹_›⟩
      · rcases ih hy with h | ⟨x', hx', h⟩
        · left; split <;> simp [h]
        · exact .inr ⟨x', List.mem_cons_of_mem x hx', h⟩

theorem mem_of_mem_pairUp {xs ys : List α} {z : α} (hz : z ∈ pairUp apart xs ys) : z ∈ xs ∨ z ∈ ys := by
  induction xs generalizing ys with
  | nil => exact .inr hz
  | cons x xs ih =>
    cases ys with
    | nil => exact .inl hz
    | cons y ys =>
      rw [pairUp] at hz
      have ih := @ih ys
      split at hz <;> simp only [List.mem_cons] at hz ⊢ <;> tauto

/-- What is kept, and what is left out, make up the two lists. -/
theorem countP_pairUp (p : α → Bool) (xs ys : List α) :
    (pairUp apart xs ys).countP p + (xs.zip ys).countP (fun z => !decide (apart z.1 z.2) && p z.2) =
      xs.countP p + ys.countP p := by
  induction xs generalizing ys with
  | nil => simp [pairUp]
  | cons x xs ih =>
    cases ys with
    | nil => simp
    | cons y ys =>
      have ih := ih ys
      rw [pairUp, List.zip_cons_cons, List.countP_cons, List.countP_cons, List.countP_cons]
      by_cases h : apart x y
      · rw [if_pos h, List.countP_cons, List.countP_cons]
        simp only [h, decide_true, Bool.not_true, Bool.false_and, Bool.false_eq_true, if_false]
        omega
      · rw [if_neg h, List.countP_cons]
        simp only [h, decide_false, Bool.not_false, Bool.true_and]
        omega

end

/-! ## Sorting keeps equal elements in order -/

/-- Of elements that are all related, sorting keeps the order. -/
theorem List.filter_insertionSort {r : α → α → Prop} [DecidableRel r] (p : α → Bool)
    (h : ∀ a b, p a → p b → r a b) (l : List α) : (l.insertionSort r).filter p = l.filter p := by
  have sorted : (l.filter p).Pairwise r :=
    List.pairwise_of_forall_mem_list fun a ha b hb => h a b (List.mem_filter.1 ha).2 (List.mem_filter.1 hb).2
  have sub := (List.sublist_insertionSort sorted List.filter_sublist).filter p
  rw [List.filter_filter] at sub
  simp only [Bool.and_self] at sub
  refine (sub.eq_of_length ?_).symm
  exact ((List.perm_insertionSort r l).filter p).length_eq.symm
