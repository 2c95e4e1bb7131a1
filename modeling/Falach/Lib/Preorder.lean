import Falach.Lib.Ancestry
import Mathlib.Data.List.Nodup
/-!
# Walks of a tree

A tree of parent links, walked from a node down: the node first, then what is below each of its children, in whatever
order they come. The walk meets every node below exactly once.
-/

universe u

variable {κ : Type u} {parent : κ → Option κ} {kids : κ → List κ} {r x y : κ}

/-- The nodes that are fewer than `n` links below a node, each before those below it. -/
def preorder (kids : κ → List κ) : Nat → κ → List κ
  | 0, _ => []
  | n + 1, x => x :: (kids x).flatMap (preorder kids n)

/-- The last link of a chain down can be taken first. -/
theorem Depth.first {n : Nat} (h : Depth parent x (n + 1) y) : ∃ c, parent c = some x ∧ Depth parent c n y := by
  induction n generalizing y with
  | zero =>
    cases h with
    | child hp hx =>
      cases hx
      exact ⟨y, hp, .root⟩
  | succ n ih =>
    cases h with
    | child hp hx =>
      obtain ⟨c, hc, hd⟩ := ih hx
      exact ⟨c, hc, .child hp hd⟩

/-- A link can be put before a chain down. -/
theorem Depth.under {c : κ} {n : Nat} (hc : parent c = some x) (h : Depth parent c n y) : Depth parent x (n + 1) y := by
  induction h with
  | root => exact .child hc .root
  | child hp _ ih => exact .child hp ih

/-- The chain down to a node does not use the links to what is below that node. -/
theorem Depth.cut {parent' : κ → Option κ} {z : κ} {n : Nat} (hr : parent r = none) (h : Depth parent r n z)
    (hzy : Below parent z y) (hcut : ∀ z q, parent z = some q → q ≠ y → parent' z = some q) : Depth parent' r n z := by
  induction h with
  | root => exact .root
  | child hp hd ih =>
    refine .child (hcut _ _ hp ?_) (ih ((Below.child hp .self).trans hzy))
    rintro rfl
    exact Below.acyclic hr (Depth.child hp hd).toBelow _ hp hzy

theorem below_of_mem_preorder (hkids : ∀ x y, y ∈ kids x → parent y = some x) {n : Nat} (h : y ∈ preorder kids n x) :
    Below parent x y := by
  induction n generalizing x with
  | zero => cases h
  | succ n ih =>
    rcases List.mem_cons.1 h with rfl | h
    · exact .self
    · obtain ⟨c, hc, hy⟩ := List.mem_flatMap.1 h
      exact (Below.child (hkids x c hc) .self).trans (ih hy)

theorem mem_preorder (hkids : ∀ x y, parent y = some x → y ∈ kids x) {n d : Nat} (h : Depth parent x d y) (hd : d < n) :
    y ∈ preorder kids n x := by
  induction n generalizing x d with
  | zero => exact absurd hd (Nat.not_lt_zero d)
  | succ n ih =>
    cases d with
    | zero =>
      cases h
      exact List.mem_cons_self
    | succ d =>
      obtain ⟨c, hc, hd'⟩ := h.first
      exact List.mem_cons_of_mem x (List.mem_flatMap.2 ⟨c, hkids x c hc, ih hd' (Nat.lt_of_succ_lt_succ hd)⟩)

theorem nodup_preorder (hkids : ∀ x y, y ∈ kids x → parent y = some x) (hnodup : ∀ x, (kids x).Nodup)
    (hr : parent r = none) {n : Nat} (hx : Below parent r x) : (preorder kids n x).Nodup := by
  induction n generalizing x with
  | zero => exact List.nodup_nil
  | succ n ih =>
    have hkid : ∀ c ∈ kids x, Below parent r c := fun c hc => .child (hkids x c hc) hx
    rw [preorder, List.nodup_cons, List.nodup_flatMap]
    refine ⟨fun hmem => ?_, fun c hc => ih (hkid c hc), ?_⟩
    · obtain ⟨c, hc, hxc⟩ := List.mem_flatMap.1 hmem
      exact Below.acyclic hr (hkid c hc) x (hkids x c hc) (below_of_mem_preorder hkids hxc)
    · refine (hnodup x).pairwise_of_forall_ne fun c hc c' hc' hne y hy hy' => hne ?_
      exact Below.siblings hr (hkid c hc) (hkid c' hc') (hkids x c hc) (hkids x c' hc') (below_of_mem_preorder hkids hy)
        (below_of_mem_preorder hkids hy')

/-! ## Outlines -/

/-- The nodes that are at most `n` links below `x`, each with its level, which is `d` for the first. -/
def outline (kids : κ → List κ) : Nat → κ → Nat → List (κ × Nat)
  | 0, _, _ => []
  | n + 1, x, d => (kids x).flatMap fun c => (c, d) :: outline kids n c (d + 1)

/-- An outline has the nodes of the walk that come after the first. -/
theorem map_fst_outline (n d : Nat) (x : κ) : x :: (outline kids n x d).map Prod.fst = preorder kids (n + 1) x := by
  induction n generalizing x d with
  | zero =>
    have hnone : (kids x).flatMap (preorder kids 0) = [] := List.flatMap_eq_nil_iff.2 fun _ _ => rfl
    rw [preorder, hnone]
    rfl
  | succ n ih =>
    rw [preorder, outline, List.map_flatMap]
    exact congrArg (fun f => x :: (kids x).flatMap f) (funext fun c => ih (d + 1) c)

/-- A node is in an outline at its own level. -/
theorem mem_outline (hkids : ∀ x y, y ∈ kids x ↔ parent y = some x) {n d k : Nat} :
    (y, k) ∈ outline kids n x d ↔ ∃ m, m < n ∧ k = d + m ∧ Depth parent x (m + 1) y := by
  induction n generalizing x d with
  | zero => exact iff_of_false List.not_mem_nil fun ⟨m, hm, _⟩ => Nat.not_lt_zero m hm
  | succ n ih =>
    rw [outline, List.mem_flatMap]
    constructor
    · rintro ⟨c, hc, hmem⟩
      rcases List.mem_cons.1 hmem with heq | hmem
      · obtain ⟨rfl, rfl⟩ := Prod.mk.inj heq
        exact ⟨0, n.succ_pos, rfl, .child ((hkids x y).1 hc) .root⟩
      · obtain ⟨m, hm, rfl, hd⟩ := ih.1 hmem
        exact ⟨m + 1, Nat.succ_lt_succ hm, by omega, hd.under ((hkids x c).1 hc)⟩
    · rintro ⟨m, hm, rfl, hd⟩
      obtain ⟨c, hc, hd⟩ := hd.first
      refine ⟨c, (hkids x c).2 hc, ?_⟩
      cases m with
      | zero =>
        cases hd
        exact List.mem_cons_self
      | succ m => exact List.mem_cons_of_mem _ (ih.2 ⟨m, Nat.lt_of_succ_lt_succ hm, by omega, hd⟩)

theorem le_of_mem_outline {n d : Nat} {row : κ × Nat} (h : row ∈ outline kids n x d) : d ≤ row.2 := by
  induction n generalizing x d with
  | zero => cases h
  | succ n ih =>
    obtain ⟨c, -, hmem⟩ := List.mem_flatMap.1 h
    rcases List.mem_cons.1 hmem with rfl | hmem
    · exact Nat.le_refl d
    · exact Nat.le_of_succ_le (ih hmem)

/-- Where the parent of `y` is among the rows above it, in an outline of `x` from level `d` on: `x` itself has no row, and
any other is the last row above at a higher level. -/
def ParentAbove (kids : κ → List κ) (x : κ) (d : Nat) (y : κ) (k : Nat) (above : List (κ × Nat)) : Prop :=
  (k = d ∧ y ∈ kids x ∧ ∀ row ∈ above, d ≤ row.2) ∨
    (d < k ∧ ∃ p, (above.reverse.find? fun row => row.2 < k) = some (p, k - 1) ∧ y ∈ kids p)

variable {n d k : Nat} {above between below : List (κ × Nat)} {c : κ} {l : List κ}

/-- The rows of an earlier child do not come in between. -/
theorem ParentAbove.later (h : ParentAbove kids x d y k between) :
    ParentAbove kids x d y k ((c, d) :: (outline kids n c (d + 1) ++ between)) := by
  rcases h with ⟨rfl, hy, habove⟩ | ⟨hk, p, hp, hy⟩
  · refine .inl ⟨rfl, hy, fun row hrow => ?_⟩
    rcases List.mem_cons.1 hrow with rfl | hrow
    · exact Nat.le_refl k
    · rcases List.mem_append.1 hrow with hrow | hrow
      · exact Nat.le_of_succ_le (le_of_mem_outline hrow)
      · exact habove row hrow
  · refine .inr ⟨hk, p, ?_, hy⟩
    rw [List.reverse_cons, List.reverse_append, List.append_assoc, List.find?_append, hp, Option.some_or]

/-- What is below a child is below the row of that child. -/
theorem ParentAbove.nested (h : ParentAbove kids c (d + 1) y k above) : ParentAbove kids x d y k ((c, d) :: above) := by
  rcases h with ⟨rfl, hy, habove⟩ | ⟨hk, p, hp, hy⟩
  · refine .inr ⟨Nat.lt_succ_self d, c, ?_, hy⟩
    have hnone : above.reverse.find? (fun row => row.2 < d + 1) = none :=
      List.find?_eq_none.2 fun row hrow hlt =>
        Nat.not_lt.2 (habove row (List.mem_reverse.1 hrow)) (of_decide_eq_true hlt)
    rw [List.reverse_cons, List.find?_append, hnone, Option.none_or, Nat.add_sub_cancel]
    exact List.find?_cons_of_pos (decide_eq_true (Nat.lt_succ_self d))
  · refine .inr ⟨Nat.lt_of_succ_lt hk, p, ?_, hy⟩
    rw [List.reverse_cons, List.find?_append, hp, Option.some_or]

/-- The last row above a row that is at a higher level is its parent: none, for a row of the first level. -/
theorem parentAbove_outline (h : outline kids n x d = above ++ (y, k) :: below) : ParentAbove kids x d y k above := by
  induction n generalizing x d above below with
  | zero => exact absurd (congrArg List.length h) (by simp [outline])
  | succ n ih =>
    -- the children from some place on
    have hfrom : ∀ l : List κ, (∀ c ∈ l, c ∈ kids x) → ∀ above,
        l.flatMap (fun c => (c, d) :: outline kids n c (d + 1)) = above ++ (y, k) :: below →
        ParentAbove kids x d y k above := by
      intro l
      induction l with
      | nil => exact fun _ above h => absurd (congrArg List.length h) (by simp)
      | cons c l ihl =>
        intro hl above h
        rw [List.flatMap_cons, List.cons_append] at h
        cases above with
        | nil =>
          obtain ⟨rfl, rfl⟩ := Prod.mk.inj (List.cons.inj h).1
          exact .inl ⟨rfl, hl c List.mem_cons_self, fun row hrow => absurd hrow List.not_mem_nil⟩
        | cons row above =>
          obtain ⟨hrow, htail⟩ := List.cons.inj h
          subst hrow
          have hlater := ihl fun c hc => hl c (List.mem_cons_of_mem _ hc)
          rcases List.append_eq_append_iff.1 htail with ⟨between, rfl, hbetween⟩ | ⟨left, hc, hleft⟩
          · exact (hlater between hbetween).later
          · cases left with
            | nil =>
              rw [List.append_nil] at hc
              have h := (hlater [] hleft.symm).later (n := n) (c := c)
              rwa [List.append_nil, hc] at h
            | cons row left =>
              obtain ⟨rfl, -⟩ := List.cons.inj hleft
              exact ParentAbove.nested (ih hc)
    exact hfrom (kids x) (fun c hc => hc) above h
