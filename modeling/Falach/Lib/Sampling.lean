import Mathlib.Data.Int.CardIntervalMod
import Mathlib.Data.List.Nodup
import Mathlib.Tactic.Push
/-!
# Uniform choices

Rejection sampling takes the draws below a multiple of the range, so that every residue comes of as many draws. The
Fisher–Yates shuffle makes of each sequence of draws a permutation, and of no two the same.
-/

/-! ## Rejection sampling -/

namespace Rejection

/-- The draws below this are taken, when a draw is at most `max`. -/
def threshold (max range : Nat) : Nat := max - max % range

theorem threshold_eq (max range : Nat) : threshold max range = range * (max / range) := by
  have h := Nat.div_add_mod max range
  unfold threshold
  omega

theorem threshold_le (max range : Nat) : threshold max range ≤ max := Nat.sub_le _ _

/-- Every index is the residue of as many draws that are taken. -/
theorem card_taken {max range index : Nat} (hi : index < range) :
    ((Finset.range (max + 1)).filter fun v => v < threshold max range ∧ v % range = index).card = max / range := by
  have hpos : 0 < range := Nat.zero_lt_of_lt hi
  have hfilter : (Finset.range (max + 1)).filter (fun v => v < threshold max range ∧ v % range = index) =
      (Finset.range (threshold max range)).filter fun v => v ≡ index [MOD range] := by
    ext v
    have hle := threshold_le max range
    have hmod : v ≡ index [MOD range] ↔ v % range = index := by
      unfold Nat.ModEq
      rw [Nat.mod_eq_of_lt hi]
    simp only [Finset.mem_filter, Finset.mem_range, hmod]
    omega
  rw [hfilter, ← Nat.count_eq_card_filter_range, Nat.count_modEq_card _ hpos, threshold_eq,
    Nat.mul_div_cancel_left _ hpos, Nat.mul_mod_right]
  rfl

/-- The others are rejected. -/
theorem card_rejected (max range : Nat) :
    ((Finset.range (max + 1)).filter fun v => ¬ v < threshold max range).card = max + 1 - range * (max / range) := by
  have hfilter : (Finset.range (max + 1)).filter (fun v => ¬ v < threshold max range) =
      Finset.Ico (threshold max range) (max + 1) := by
    ext v
    simp only [Finset.mem_filter, Finset.mem_range, Finset.mem_Ico, not_lt]
    exact and_comm
  rw [hfilter, Nat.card_Ico, threshold_eq]

end Rejection

/-! ## The shuffle -/

namespace Shuffle

variable {α : Type*}

/-- `slice::swap`, of two places that are there. -/
def swap (xs : List α) (i j : Nat) : Option (List α) := do
  let a ← xs[i]?
  let b ← xs[j]?
  return (xs.set i b).set j a

/-- The draws for the places from `i` down to 1: each is a place at most as far. -/
def InRange : Nat → List Nat → Prop
  | 0, draws => draws = []
  | _ + 1, [] => False
  | i + 1, j :: draws => j ≤ i + 1 ∧ InRange i draws

/-- From place `i` down to 1, swap each with the place that is drawn for it. -/
def shuffle : Nat → List Nat → List α → Option (List α)
  | 0, _, xs => some xs
  | _ + 1, [], _ => none
  | i + 1, j :: draws, xs => (swap xs (i + 1) j).bind (shuffle i draws)

theorem InRange.length_eq {i : Nat} {draws : List Nat} (h : InRange i draws) : draws.length = i := by
  induction i generalizing draws with
  | zero => rw [InRange] at h; rw [h]; rfl
  | succ i ih =>
    cases draws with
    | nil => exact h.elim
    | cons j draws => rw [List.length_cons, ih h.2]

theorem swap_eq {xs : List α} {i j : Nat} (hi : i < xs.length) (hj : j < xs.length) :
    swap xs i j = some ((xs.set i xs[j]).set j xs[i]) := by
  unfold swap
  rw [List.getElem?_eq_getElem hi, List.getElem?_eq_getElem hj]
  rfl

theorem swap_getElem? {xs ys : List α} {i j : Nat} (h : swap xs i j = some ys) (k : Nat) :
    ys[k]? = if k = j then xs[i]? else if k = i then xs[j]? else xs[k]? := by
  unfold swap at h
  obtain ⟨a, ha, h⟩ := Option.bind_eq_some_iff.1 h
  obtain ⟨b, hb, h⟩ := Option.bind_eq_some_iff.1 h
  obtain rfl := Option.some.inj h
  have hi := (List.getElem?_eq_some_iff.1 ha).1
  have hj := (List.getElem?_eq_some_iff.1 hb).1
  rw [List.getElem?_set, List.getElem?_set, List.length_set, ha, hb]
  by_cases hkj : j = k
  · subst hkj
    rw [if_pos rfl, if_pos hj, if_pos rfl]
  · rw [if_neg hkj, if_neg (Ne.symm hkj)]
    by_cases hki : i = k
    · subst hki
      rw [if_pos rfl, if_pos hi, if_pos rfl]
    · rw [if_neg hki, if_neg (Ne.symm hki)]

theorem swap_perm {xs ys : List α} {i j : Nat} (h : swap xs i j = some ys) : ys.Perm xs := by
  unfold swap at h
  obtain ⟨a, ha, h⟩ := Option.bind_eq_some_iff.1 h
  obtain ⟨b, hb, h⟩ := Option.bind_eq_some_iff.1 h
  obtain rfl := Option.some.inj h
  obtain ⟨hi, rfl⟩ := List.getElem?_eq_some_iff.1 ha
  obtain ⟨hj, rfl⟩ := List.getElem?_eq_some_iff.1 hb
  exact List.set_set_perm hi hj

theorem swap_map {β : Type*} (f : α → β) (xs : List α) (i j : Nat) :
    swap (xs.map f) i j = (swap xs i j).map (List.map f) := by
  unfold swap
  rw [List.getElem?_map, List.getElem?_map]
  cases xs[i]? with
  | none => rfl
  | some a =>
    cases xs[j]? with
    | none => rfl
    | some b =>
      change some (((xs.map f).set i (f b)).set j (f a)) = some (List.map f ((xs.set i b).set j a))
      rw [List.map_set, List.map_set]

variable {i : Nat} {draws : List Nat} {xs ys : List α}

/-- It swaps, and nothing else. -/
theorem shuffle_perm (h : shuffle i draws xs = some ys) : ys.Perm xs := by
  induction i generalizing draws xs with
  | zero =>
    obtain rfl := Option.some.inj h
    exact .refl _
  | succ i ih =>
    cases draws with
    | nil => cases h
    | cons j draws =>
      obtain ⟨zs, hzs, h⟩ := Option.bind_eq_some_iff.1 h
      exact (ih h).trans (swap_perm hzs)

/-- What it does to places it does whatever is in them. -/
theorem shuffle_map {β : Type*} (f : α → β) (i : Nat) (draws : List Nat) (xs : List α) :
    shuffle i draws (xs.map f) = (shuffle i draws xs).map (List.map f) := by
  induction i generalizing draws xs with
  | zero => rfl
  | succ i ih =>
    cases draws with
    | nil => rfl
    | cons j draws =>
      unfold shuffle
      rw [swap_map]
      cases swap xs (i + 1) j with
      | none => rfl
      | some zs => exact ih draws zs

/-- Draws in range are all it needs. -/
theorem InRange.shuffle_isSome (h : InRange i draws) (hi : i ≤ xs.length - 1) : ∃ ys, shuffle i draws xs = some ys := by
  induction i generalizing draws xs with
  | zero => exact ⟨xs, rfl⟩
  | succ i ih =>
    cases draws with
    | nil => exact h.elim
    | cons j draws =>
      have hj : j < xs.length := by have := h.1; omega
      have hswap := swap_eq (show i + 1 < xs.length by omega) hj
      have hi' : i ≤ ((xs.set (i + 1) xs[j]).set j xs[i + 1]).length - 1 := by
        rw [List.length_set, List.length_set]
        omega
      obtain ⟨ys, hys⟩ := ih h.2 hi'
      refine ⟨ys, ?_⟩
      unfold shuffle
      rw [hswap]
      exact hys

/-- A place stays as it is once the loop has passed it. -/
theorem InRange.shuffle_above (h : InRange i draws) (hs : shuffle i draws xs = some ys) {k : Nat} (hk : i < k) :
    ys[k]? = xs[k]? := by
  induction i generalizing draws xs with
  | zero =>
    obtain rfl := Option.some.inj hs
    rfl
  | succ i ih =>
    cases draws with
    | nil => exact h.elim
    | cons j draws =>
      obtain ⟨zs, hzs, hs⟩ := Option.bind_eq_some_iff.1 hs
      have hj := h.1
      rw [ih h.2 hs (by omega), swap_getElem? hzs, if_neg (by omega), if_neg (by omega)]

/-- Two lists of the same elements that agree on all places but the first are the same. -/
theorem eq_of_tail (hn : xs.Nodup) (hp : ys.Perm xs) (htail : ∀ k, 0 < k → ys[k]? = xs[k]?) : ys = xs := by
  cases xs with
  | nil => exact hp.eq_nil
  | cons x xs =>
    cases ys with
    | nil => exact hp.symm.eq_nil.symm
    | cons y ys =>
      obtain rfl : ys = xs := List.ext_getElem? fun k => htail (k + 1) (Nat.succ_pos k)
      have hy : y ∉ ys := (List.nodup_cons.1 (hp.nodup_iff.2 hn)).1
      rw [(List.mem_cons.1 (hp.subset List.mem_cons_self)).resolve_right hy]

/-- Each order of the elements is made by exactly one sequence of draws. -/
theorem existsUnique_draws (hn : xs.Nodup) (hp : ys.Perm xs) (hi : i ≤ xs.length - 1)
    (habove : ∀ k, i < k → ys[k]? = xs[k]?) : ∃! draws, InRange i draws ∧ shuffle i draws xs = some ys := by
  induction i generalizing xs with
  | zero =>
    obtain rfl := eq_of_tail hn hp habove
    exact ⟨[], ⟨rfl, rfl⟩, fun draws h => h.1⟩
  | succ i ih =>
    have hlen := hp.length_eq
    have hix : i + 1 < xs.length := by omega
    -- the element that ends in place `i + 1` says what is drawn for it
    have hiy : i + 1 < ys.length := by omega
    obtain ⟨j, hj, hget⟩ := List.getElem_of_mem (hp.subset (List.getElem_mem hiy))
    have hplace : ∀ k, xs[k]? = ys[i + 1]? → k = j := by
      intro k hk
      rw [List.getElem?_eq_getElem hiy, ← hget] at hk
      obtain ⟨hlt, heq⟩ := List.getElem?_eq_some_iff.1 hk
      exact (hn.getElem_inj_iff).1 heq
    have hxj : xs[j]? = ys[i + 1]? := by rw [List.getElem?_eq_getElem hj, List.getElem?_eq_getElem hiy, hget]
    have hle : j ≤ i + 1 := by
      by_contra hlt
      have hyj := (habove j (by omega)).trans hxj
      rw [List.getElem?_eq_getElem (by omega), List.getElem?_eq_getElem hiy, Option.some.injEq] at hyj
      have := ((hp.nodup_iff.2 hn).getElem_inj_iff).1 hyj
      omega
    have hswap := swap_eq hix hj
    set zs := (xs.set (i + 1) xs[j]).set j xs[i + 1] with hzs
    have hzp := swap_perm hswap
    have hagree : ∀ k, i < k → ys[k]? = zs[k]? := by
      intro k hk
      rw [swap_getElem? hswap]
      by_cases hkj : k = j
      · obtain rfl : k = i + 1 := by omega
        rw [if_pos hkj, hkj, hxj, ← hkj]
      · rw [if_neg hkj]
        by_cases hki : k = i + 1
        · rw [if_pos hki, hki, hxj]
        · rw [if_neg hki]
          exact habove k (by omega)
    obtain ⟨rest, ⟨hrange, hrest⟩, hunique⟩ := ih (hzp.nodup_iff.2 hn) (hp.trans hzp.symm)
      (by rw [hzp.length_eq]; omega) hagree
    refine ⟨j :: rest, ⟨⟨hle, hrange⟩, ?_⟩, ?_⟩
    · unfold shuffle
      rw [hswap]
      exact hrest
    · rintro draws ⟨hrange', hdraws⟩
      cases draws with
      | nil => exact hrange'.elim
      | cons k draws =>
        obtain ⟨ws, hws, hdraws⟩ := Option.bind_eq_some_iff.1 hdraws
        have hk := hrange'.2.shuffle_above hdraws (Nat.lt_succ_self i)
        rw [swap_getElem? hws] at hk
        obtain rfl : k = j := by
          refine hplace k ?_
          split at hk
          · rename_i heq
            rw [← heq]
            exact hk.symm
          · rw [if_pos rfl] at hk
            exact hk.symm
        obtain rfl := Option.some.inj (hswap.symm.trans hws)
        rw [hunique draws ⟨hrange'.2, hdraws⟩]

end Shuffle
