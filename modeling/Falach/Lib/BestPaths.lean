import Mathlib.Data.Int.Order.Basic
import Mathlib.Tactic.Linarith
/-!
# Best paths through layers

A path takes one place in every layer, each behind the one before. A place in a layer has a worth, if it can be taken at
all, and so has the step from one place to the next. The best score at a place is made of the best scores at the places
before it in the layer before; where several are equally good the first one counts.
-/

/-! ## The first of the best values -/

/-- Of the best value so far and the one at `k`, the better, and where it is; the new one has to be strictly better. -/
def keepBetter (best : Option (ℤ × ℕ)) (value : Option ℤ) (k : ℕ) : Option (ℤ × ℕ) :=
  match value, best with
  | none, best => best
  | some x, none => some (x, k)
  | some x, some (y, l) => if y < x then some (x, k) else some (y, l)

/-- The best of the values below `n`, and the first place where it is. -/
def firstBest (f : ℕ → Option ℤ) : ℕ → Option (ℤ × ℕ)
  | 0 => none
  | n + 1 => keepBetter (firstBest f n) (f n) n

section

variable {f g : ℕ → Option ℤ} {n k : ℕ} {x : ℤ}

@[simp] theorem keepBetter_none (best : Option (ℤ × ℕ)) (k : ℕ) : keepBetter best none k = best := by cases best <;> rfl

theorem firstBest_congr (h : ∀ k < n, f k = g k) : firstBest f n = firstBest g n := by
  induction n with
  | zero => rfl
  | succ n ih => rw [firstBest, firstBest, ih fun k hk => h k (by omega), h n (by omega)]

theorem firstBest_eq_none : firstBest f n = none ↔ ∀ k < n, f k = none := by
  induction n with
  | zero => simp [firstBest]
  | succ n ih =>
    rw [Nat.forall_lt_succ_right, ← ih, firstBest]
    cases hf : f n with
    | none => simp
    | some x =>
      cases firstBest f n with
      | none => simp [keepBetter]
      | some best => simp only [keepBetter]; split <;> simp

/-- It is one of the values, and none is better. -/
theorem firstBest_spec (h : firstBest f n = some (x, k)) : k < n ∧ f k = some x ∧ ∀ l < n, ∀ y, f l = some y →
    y ≤ x := by
  induction n generalizing x k with
  | zero => cases h
  | succ n ih =>
    rw [firstBest] at h
    cases hf : f n with
    | none =>
      rw [hf, keepBetter_none] at h
      obtain ⟨hk, hx, hbest⟩ := ih h
      refine ⟨by omega, hx, fun l hl y hy => ?_⟩
      rcases Nat.lt_succ_iff_lt_or_eq.1 hl with hl | rfl
      · exact hbest l hl y hy
      · rw [hf] at hy
        cases hy
    | some z =>
      rw [hf] at h
      cases hbest : firstBest f n with
      | none =>
        rw [hbest] at h
        cases h
        refine ⟨by omega, hf, fun l hl y hy => ?_⟩
        rcases Nat.lt_succ_iff_lt_or_eq.1 hl with hl | rfl
        · rw [firstBest_eq_none.1 hbest l hl] at hy
          cases hy
        · rw [hf] at hy
          exact (Option.some.inj hy).ge
      | some best =>
        obtain ⟨y, l⟩ := best
        obtain ⟨hl, hy, hless⟩ := ih hbest
        rw [hbest] at h
        simp only [keepBetter] at h
        split at h
        · rename_i hlt
          cases h
          refine ⟨by omega, hf, fun l hl w hw => ?_⟩
          rcases Nat.lt_succ_iff_lt_or_eq.1 hl with hl | rfl
          · exact (hless l hl w hw).trans hlt.le
          · rw [hf] at hw
            exact (Option.some.inj hw).ge
        · rename_i hle
          cases h
          refine ⟨by omega, hy, fun l hl w hw => ?_⟩
          rcases Nat.lt_succ_iff_lt_or_eq.1 hl with hl | rfl
          · exact hless l hl w hw
          · rw [hf] at hw
            exact (Option.some.inj hw) ▸ not_lt.1 hle

/-- What is added to every value does not change which is the best. -/
theorem firstBest_add (f : ℕ → Option ℤ) (n : ℕ) (c : ℤ) :
    firstBest (fun k => (f k).map (· + c)) n = (firstBest f n).map fun best => (best.1 + c, best.2) := by
  induction n with
  | zero => rfl
  | succ n ih =>
    rw [firstBest, firstBest, ih]
    cases f n with
    | none => simp
    | some x =>
      cases firstBest f n with
      | none => rfl
      | some best =>
        simp only [Option.map_some, keepBetter, add_lt_add_iff_right]
        split <;> rfl

end

/-! ## Layers -/

structure Layers where
  worth : (layer place : ℕ) → Option ℤ
  step : (before place : ℕ) → ℤ

namespace Layers

variable (L : Layers)

/-- The paths that end at a place of a layer, with their scores. -/
inductive Path : ℕ → ℕ → ℤ → List ℕ → Prop
  | start {j : ℕ} {w : ℤ} : L.worth 0 j = some w → Path 0 j w [j]
  | next {i j k : ℕ} {s w : ℤ} {ks : List ℕ} : Path i k s ks → k < j → L.worth (i + 1) j = some w →
      Path (i + 1) j (s + L.step k j + w) (ks ++ [j])

/-- The best score at a place of a layer. -/
def score : ℕ → ℕ → Option ℤ
  | 0, j => L.worth 0 j
  | i + 1, j =>
    (L.worth (i + 1) j).bind fun w => (firstBest (fun k => (score i k).map (· + L.step k j)) j).map fun best =>
      best.1 + w

/-- The best way to a place of the layer behind `i`, and the place in `i` that it comes from. -/
def before (i j : ℕ) : Option (ℤ × ℕ) := firstBest (fun k => (L.score i k).map (· + L.step k j)) j

/-- The best path to a place, read off backwards. -/
def trace : ℕ → ℕ → List ℕ
  | 0, j => [j]
  | i + 1, j => ((L.before i j).map fun best => trace i best.2).getD [] ++ [j]

variable {L} {i j : ℕ} {s : ℤ} {ks : List ℕ}

theorem score_succ : L.score (i + 1) j = (L.worth (i + 1) j).bind fun w => (L.before i j).map fun best =>
    best.1 + w := rfl

theorem score_succ_eq_some : L.score (i + 1) j = some s ↔
    ∃ w x k, L.worth (i + 1) j = some w ∧ L.before i j = some (x, k) ∧ x + w = s := by
  simp [score_succ, Option.bind_eq_some_iff]

theorem before_spec {x : ℤ} {k : ℕ} (h : L.before i j = some (x, k)) :
    k < j ∧ ∃ s, L.score i k = some s ∧ x = s + L.step k j := by
  obtain ⟨hk, hx, -⟩ := firstBest_spec h
  obtain ⟨s, hs, rfl⟩ := Option.map_eq_some_iff.1 hx
  exact ⟨hk, s, hs, rfl⟩

/-- The best score is the score of the path that is read off. -/
theorem path_trace (h : L.score i j = some s) : L.Path i j s (L.trace i j) := by
  induction i generalizing j s with
  | zero => exact .start h
  | succ i ih =>
    obtain ⟨w, x, k, hw, hbefore, rfl⟩ := score_succ_eq_some.1 h
    obtain ⟨hk, s, hs, rfl⟩ := before_spec hbefore
    have htrace : L.trace (i + 1) j = L.trace i k ++ [j] := by rw [trace, hbefore]; rfl
    rw [htrace]
    exact .next (ih hs) hk hw

/-- No path is better than the best score. -/
theorem Path.le_score (h : L.Path i j s ks) : ∃ t, L.score i j = some t ∧ s ≤ t := by
  induction h with
  | start hw => exact ⟨_, hw, le_rfl⟩
  | @next i j k s w ks _ hk hw ih =>
    obtain ⟨t, ht, hle⟩ := ih
    cases hbefore : L.before i j with
    | none =>
      have hnone := firstBest_eq_none.1 hbefore k hk
      rw [ht] at hnone
      cases hnone
    | some best =>
      obtain ⟨x, l⟩ := best
      have hx := (firstBest_spec hbefore).2.2 k hk _ (congrArg (Option.map (· + L.step k j)) ht)
      exact ⟨x + w, score_succ_eq_some.2 ⟨w, x, l, hw, hbefore, rfl⟩, by linarith⟩

theorem Path.worth_isSome (h : L.Path i j s ks) : ∃ w, L.worth i j = some w := by
  cases h with
  | start hw => exact ⟨_, hw⟩
  | next _ _ hw => exact ⟨_, hw⟩

/-- A path has come past a place in every layer. -/
theorem Path.le_place (h : L.Path i j s ks) : i ≤ j := by
  induction h with
  | start => omega
  | next _ hk _ ih => omega

theorem score_eq_none_of_lt (h : j < i) : L.score i j = none := by
  cases hs : L.score i j with
  | none => rfl
  | some s =>
    have hle := (path_trace hs).le_place
    omega

end Layers
