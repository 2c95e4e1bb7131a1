import Mathlib.Data.Finset.Card
/-!
# Parent links

A tree given by the parent of each node. A node has at most one parent, so the nodes above it form a chain, and
what a change of the links does to a node depends only on the links of that chain.
-/

universe u

variable {κ : Type u} {parent parent' : κ → Option κ} {a b c p r x y : κ}

/-- `y` is `x`, or below it. -/
inductive Below (parent : κ → Option κ) (x : κ) : κ → Prop where
  | self : Below parent x x
  | child {y p : κ} : parent y = some p → Below parent x p → Below parent x y

namespace Below

theorem trans (hab : Below parent a b) (hbc : Below parent b c) : Below parent a c := by
  induction hbc with
  | self => exact hab
  | child hp _ ih => exact .child hp ih

theorem iff_parent : Below parent x y ↔ y = x ∨ ∃ p, parent y = some p ∧ Below parent x p := by
  constructor
  · intro h
    cases h with
    | self => exact .inl rfl
    | child hp h => exact .inr ⟨_, hp, h⟩
  · rintro (rfl | ⟨p, hp, h⟩)
    · exact .self
    · exact .child hp h

theorem iff_child : Below parent x y ↔ y = x ∨ ∃ c, parent c = some x ∧ Below parent c y := by
  constructor
  · intro h
    induction h with
    | self => exact .inl rfl
    | @child y p hp _ ih =>
      rcases ih with rfl | ⟨c, hc, hcp⟩
      · exact .inr ⟨y, hp, .self⟩
      · exact .inr ⟨c, hc, .child hp hcp⟩
  · rintro (rfl | ⟨c, hc, h⟩)
    · exact .self
    · exact (Below.child hc .self).trans h

theorem mono (h : ∀ z q, parent z = some q → parent' z = some q) (hxy : Below parent x y) : Below parent' x y := by
  induction hxy with
  | self => exact .self
  | child hp _ ih => exact .child (h _ _ hp) ih

/-- Of two nodes above `y`, one is above the other. -/
theorem total (ha : Below parent a y) (hb : Below parent b y) : Below parent a b ∨ Below parent b a := by
  induction ha with
  | self => exact .inr hb
  | child hp h ih =>
    cases hb with
    | self => exact .inl (.child hp h)
    | child hp' hb =>
      obtain rfl := Option.some.inj (hp.symm.trans hp')
      exact ih hb

/-- A node below a root is not below its own parent's child again: there are no cycles. -/
theorem acyclic (hr : parent r = none) (h : Below parent r x) : ∀ q, parent x = some q → ¬ Below parent x q := by
  induction h with
  | self => intro q hq; rw [hr] at hq; cases hq
  | @child x p hp h ih =>
    intro q hq hxq
    obtain rfl := Option.some.inj (hp.symm.trans hq)
    -- a cycle through `x` passes through its parent `p`, where there is none
    rcases iff_parent.1 hxq with rfl | ⟨s, hs, hxs⟩
    · exact ih _ hp .self
    · exact ih s hs ((Below.child hp .self).trans hxs)

/-- No node is below two children of one node. -/
theorem siblings {c c' : κ} (hr : parent r = none) (hrc : Below parent r c) (hrc' : Below parent r c')
    (hc : parent c = some p) (hc' : parent c' = some p) (h : Below parent c y) (h' : Below parent c' y) : c = c' := by
  rcases total h h' with hb | hb
  · rcases iff_parent.1 hb with rfl | ⟨q, hq, hb⟩
    · rfl
    · obtain rfl := Option.some.inj (hc'.symm.trans hq); exact absurd hb (acyclic hr hrc _ hc)
  · rcases iff_parent.1 hb with rfl | ⟨q, hq, hb⟩
    · rfl
    · obtain rfl := Option.some.inj (hc.symm.trans hq); exact absurd hb (acyclic hr hrc' _ hc')

/-- The links with node `x` moved under `p`. -/
theorem move [DecidableEq κ] (h : ∀ z, z ≠ x → parent' z = parent z) (hx : parent' x = some p) (hxr : x ≠ r)
    (hp : Below parent r p) (hxp : ¬ Below parent x p) (hy : Below parent r y) : Below parent' r y := by
  -- the nodes above `p` keep their links: `x` is not among them
  have keeps : ∀ z, Below parent r z → ¬ Below parent x z → Below parent' r z := by
    intro z hz
    induction hz with
    | self => intro _; exact .self
    | @child z q hq _ ih =>
      intro hxz
      have hzx : z ≠ x := by rintro rfl; exact hxz .self
      exact .child ((h z hzx).trans hq) (ih fun hxq => hxz (.child hq hxq))
  induction hy with
  | self => exact .self
  | @child y q hq _ ih =>
    by_cases hyx : y = x
    · subst hyx; exact .child hx (keeps p hp hxp)
    · exact .child ((h y hyx).trans hq) ih

/-- What is below a node does not depend on the node's own parent. -/
theorem update_self [DecidableEq κ] {q : Option κ} : Below (Function.update parent x q) x y ↔ Below parent x y := by
  constructor
  · intro h
    induction h with
    | self => exact .self
    | @child y p hp _ ih =>
      by_cases hy : y = x
      · subst hy; exact .self
      · rw [Function.update_of_ne hy] at hp
        exact .child hp ih
  · intro h
    induction h with
    | self => exact .self
    | @child y p hp _ ih =>
      by_cases hy : y = x
      · subst hy; exact .self
      · exact .child (by rwa [Function.update_of_ne hy]) ih

end Below

/-! ## Depth -/

/-- `y` is `n` links below `r`. -/
inductive Depth (parent : κ → Option κ) (r : κ) : Nat → κ → Prop where
  | root : Depth parent r 0 r
  | child {n : Nat} {y p : κ} : parent y = some p → Depth parent r n p → Depth parent r (n + 1) y

theorem Below.depth (h : Below parent r y) : ∃ n, Depth parent r n y := by
  induction h with
  | self => exact ⟨0, .root⟩
  | child hp _ ih => obtain ⟨n, hn⟩ := ih; exact ⟨n + 1, .child hp hn⟩

theorem Depth.toBelow {n : Nat} (h : Depth parent r n y) : Below parent r y := by
  induction h with
  | root => exact .self
  | child hp _ ih => exact .child hp ih

theorem Depth.mono {n : Nat} (h : ∀ z q, parent z = some q → parent' z = some q) (hd : Depth parent r n y) :
    Depth parent' r n y := by
  induction hd with
  | root => exact .root
  | child hp _ ih => exact .child (h _ _ hp) ih

theorem Depth.unique {n m : Nat} (hr : parent r = none) (h : Depth parent r n y) (h' : Depth parent r m y) : n = m := by
  induction h generalizing m with
  | root =>
    cases h' with
    | root => rfl
    | child hp _ => rw [hr] at hp; cases hp
  | child hp _ ih =>
    cases h' with
    | root => rw [hr] at hp; cases hp
    | child hp' h' =>
      obtain rfl := Option.some.inj (hp.symm.trans hp')
      rw [ih h']

/-- The `n + 1` nodes from the root down to a node of depth `n` are different. -/
theorem Depth.chain [DecidableEq κ] {n : Nat} (hr : parent r = none) (h : Depth parent r n y) :
    ∃ s : Finset κ, s.card = n + 1 ∧ ∀ z ∈ s, Below parent z y ∧ Below parent r z := by
  induction h with
  | root => exact ⟨{r}, rfl, fun z hz => by rw [Finset.mem_singleton.1 hz]; exact ⟨.self, .self⟩⟩
  | @child n y p hp hd ih =>
    obtain ⟨s, hs, hz⟩ := ih
    have hy : y ∉ s := fun hy => Below.acyclic hr (.child hp hd.toBelow) p hp (hz y hy).1
    refine ⟨insert y s, by rw [Finset.card_insert_of_notMem hy, hs], ?_⟩
    intro z hm
    rcases Finset.mem_insert.1 hm with rfl | hm
    · exact ⟨.self, .child hp hd.toBelow⟩
    · exact ⟨.child hp (hz z hm).1, (hz z hm).2⟩

theorem Depth.lt_card [DecidableEq κ] {n : Nat} {nodes : Finset κ} (hr : parent r = none) (h : Depth parent r n y)
    (hn : ∀ z, Below parent r z → z ∈ nodes) : n < nodes.card := by
  obtain ⟨s, hs, hz⟩ := h.chain hr
  have := Finset.card_le_card fun z hm => hn z (hz z hm).2
  omega
