import Mathlib.Data.List.Nodup
/-!
# Overrides

A table is a list of rows, each with an owner. Some owners have their rows of another table; the others have those of
the base table. An owner may get the rows of the base table back at any time, and once no owner with other rows clashes
with anything, nothing in the table clashes.
-/

universe u v

namespace Overrides

variable {K : Type u} {R : Type v} [DecidableEq K] {owner : R → K} {clash : R → R → Prop}
    {rows table base overrides : List R}
  {active : List K} {j k : K} {r : R}

/-- The rows of an owner. -/
def rowsOf (owner : R → K) (k : K) (table : List R) : List R := table.filter fun r => owner r = k

/-- The table with other rows of an owner. -/
def replace (owner : R → K) (k : K) (rows table : List R) : List R := (table.filter fun r => owner r ≠ k) ++ rows

@[simp] theorem mem_rowsOf : r ∈ rowsOf owner k table ↔ r ∈ table ∧ owner r = k := by
  rw [rowsOf, List.mem_filter, decide_eq_true_eq]

theorem rowsOf_eq_self (h : ∀ r ∈ rows, owner r = k) : rowsOf owner k rows = rows :=
  List.filter_eq_self.2 fun r hr => decide_eq_true (h r hr)

theorem rowsOf_replace_self (h : ∀ r ∈ rows, owner r = k) : rowsOf owner k (replace owner k rows table) = rows := by
  have hnone : rowsOf owner k (table.filter fun r => owner r ≠ k) = [] := by
    refine List.filter_eq_nil_iff.2 fun r hr howner => ?_
    exact of_decide_eq_true (List.mem_filter.1 hr).2 (of_decide_eq_true howner)
  rw [replace, rowsOf, List.filter_append]
  exact congr (congrArg _ hnone) (rowsOf_eq_self h)

theorem rowsOf_replace_ne (h : ∀ r ∈ rows, owner r = k) (hne : j ≠ k) :
    rowsOf owner j (replace owner k rows table) = rowsOf owner j table := by
  have hnone : rowsOf owner j rows = [] := by
    refine List.filter_eq_nil_iff.2 fun r hr howner => hne ?_
    exact (of_decide_eq_true howner).symm.trans (h r hr)
  have hrest : rowsOf owner j (table.filter fun r => owner r ≠ k) = rowsOf owner j table := by
    rw [rowsOf, rowsOf, List.filter_filter]
    refine List.filter_congr fun r _ => ?_
    by_cases howner : owner r = j
    · rw [howner, decide_eq_true rfl, decide_eq_true hne, Bool.and_self]
    · rw [decide_eq_false howner, Bool.false_and]
  rw [replace, rowsOf, List.filter_append]
  exact (congr (congrArg _ hrest) hnone).trans (List.append_nil _)

/-- The owners of a list have their rows of one table, and all others those of another. -/
def Picks (owner : R → K) (base overrides : List R) (active : List K) (table : List R) : Prop :=
  ∀ k, rowsOf owner k table = rowsOf owner k (if k ∈ active then overrides else base)

namespace Picks

/-- A table picks its own rows for the owners whose rows are not those of the base table. -/
theorem start (h : ∀ k ∉ active, rowsOf owner k overrides = rowsOf owner k base) :
    Picks owner base overrides active overrides := by
  intro k
  by_cases hk : k ∈ active
  · rw [if_pos hk]
  · rw [if_neg hk, h k hk]

theorem taken (h : Picks owner base overrides active table) (hk : k ∈ active) :
    rowsOf owner k table = rowsOf owner k overrides := by rw [h k, if_pos hk]

theorem kept (h : Picks owner base overrides active table) (hk : k ∉ active) :
    rowsOf owner k table = rowsOf owner k base := by rw [h k, if_neg hk]

/-- Every row is one of the two tables. -/
theorem mem (h : Picks owner base overrides active table) (hr : r ∈ table) : r ∈ base ∨ r ∈ overrides := by
  have hrow : r ∈ rowsOf owner (owner r) table := mem_rowsOf.2 ⟨hr, rfl⟩
  by_cases hk : owner r ∈ active
  · rw [h.taken hk] at hrow
    exact .inr (mem_rowsOf.1 hrow).1
  · rw [h.kept hk] at hrow
    exact .inl (mem_rowsOf.1 hrow).1

/-- An owner that gets the rows of the base table back is no longer one of the list. -/
theorem restore {i : Nat} (h : Picks owner base overrides active table) (hn : active.Nodup) (hi : i < active.length) :
    Picks owner base overrides (active.eraseIdx i) (replace owner active[i] (rowsOf owner active[i] base) table) := by
  have hrows : ∀ r ∈ rowsOf owner active[i] base, owner r = active[i] := fun r hr => (mem_rowsOf.1 hr).2
  intro k
  have hmem : k ∈ active.eraseIdx i ↔ k ≠ active[i] ∧ k ∈ active := by
    rw [← hn.erase_getElem i hi]
    exact hn.mem_erase_iff
  by_cases hk : k = active[i]
  · rw [if_neg fun hin => (hmem.1 hin).1 hk, hk, rowsOf_replace_self hrows]
  · rw [rowsOf_replace_ne hrows hk, h k]
    by_cases hactive : k ∈ active
    · rw [if_pos hactive, if_pos (hmem.2 ⟨hk, hactive⟩)]
    · rw [if_neg hactive, if_neg fun hin => hactive (hmem.1 hin).2]

end Picks

/-- Rows of different owners do not clash. -/
def Apart (owner : R → K) (clash : R → R → Prop) (table : List R) : Prop :=
  ∀ r ∈ table, ∀ r' ∈ table, owner r ≠ owner r' → ¬ clash r r'

/-- Where the rows of the base table do not clash, a table is apart as soon as the owners of the list clash with
nothing. -/
theorem Picks.apart (h : Picks owner base overrides active table) (hsymm : ∀ {r r'}, clash r r' → clash r' r)
    (hbase : Apart owner clash base)
    (hactive : ∀ r ∈ table, owner r ∈ active → ∀ r' ∈ table, owner r ≠ owner r' → ¬ clash r r') :
    Apart owner clash table := by
  have hrow : ∀ r ∈ table, owner r ∉ active → r ∈ base := by
    intro r hr hk
    have hin : r ∈ rowsOf owner (owner r) table := mem_rowsOf.2 ⟨hr, rfl⟩
    rw [h.kept hk] at hin
    exact (mem_rowsOf.1 hin).1
  intro r hr r' hr' hne
  by_cases hk : owner r ∈ active
  · exact hactive r hr hk r' hr' hne
  · by_cases hk' : owner r' ∈ active
    · exact fun hclash => hactive r' hr' hk' r hr hne.symm (hsymm hclash)
    · exact hbase r (hrow r hr hk) r' (hrow r' hr' hk') hne

end Overrides
