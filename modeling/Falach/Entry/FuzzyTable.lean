import Falach.Entry.Embeddings
import Falach.Lib.Loops
/-!
# The table of the fuzzy matcher

The cells of the table hold the best scores of the layers, with the places they come from, as long as the texts are
short enough for the scores: whether a row is filled with a running best or by looking at every predecessor.
-/

namespace Falach

open Scoring

/-! ## Arithmetic in range -/

section

variable {a b : Int32} {x y : ℤ}

theorem toInt_add_eq (ha : a.toInt = x) (hb : b.toInt = y) (hlow : -2 ^ 31 ≤ x + y) (hhigh : x + y < 2 ^ 31) :
    (a + b).toInt = x + y := by
  rw [Int32.toInt_add, ha, hb]
  exact Int.bmod_eq_of_le hlow hhigh

theorem toInt_sub_eq (ha : a.toInt = x) (hb : b.toInt = y) (hlow : -2 ^ 31 ≤ x - y) (hhigh : x - y < 2 ^ 31) :
    (a - b).toInt = x - y := by
  rw [Int32.toInt_sub, ha, hb]
  exact Int.bmod_eq_of_le hlow hhigh

theorem toInt_mul_eq (ha : a.toInt = x) (hb : b.toInt = y) (hlow : -2 ^ 31 ≤ x * y) (hhigh : x * y < 2 ^ 31) :
    (a * b).toInt = x * y := by
  rw [Int32.toInt_mul, ha, hb]
  exact Int.bmod_eq_of_le hlow hhigh

end

theorem toInt_clampI32 {n : ℕ} (h : n < 2 ^ 31) : (clampI32 n).toInt = n := by
  rw [clampI32, if_pos h, Int32.toInt_ofNat_of_lt h]

@[simp] theorem toInt_unreachable : unreachable.toInt = -2 ^ 30 := by decide

theorem toInt_scoreGapStart : scoreGapStart.toInt = -3 := by decide

theorem toInt_scoreGapExt : scoreGapExt.toInt = -1 := by decide

theorem toInt_bonusConsecutive : bonusConsecutive.toInt = 4 := by decide

/-- What the running best is given, in range. -/
theorem toInt_gapBase {score : Int32} {s : ℤ} {k : ℕ} (hscore : score.toInt = s) (hk : k < 2 ^ 30) (hlow : -2 ^ 30 < s)
    (hhigh : s + k < 2 ^ 31) : (score - scoreGapExt * clampI32 k).toInt = s + k := by
  have h₁ : -2 ^ 31 ≤ -1 * (k : ℤ) ∧ -1 * (k : ℤ) < 2 ^ 31 := by omega
  have h₂ : -2 ^ 31 ≤ s - -1 * (k : ℤ) ∧ s - -1 * (k : ℤ) < 2 ^ 31 := by omega
  have hvalue : s - -1 * (k : ℤ) = s + k := by omega
  have hmul := toInt_mul_eq toInt_scoreGapExt (toInt_clampI32 (by omega)) h₁.1 h₁.2
  rw [toInt_sub_eq hscore hmul h₂.1 h₂.2, hvalue]

/-- What the running best gives to a column, in range. -/
theorem toInt_gapToColumn {base : Int32} {x : ℤ} {l : ℕ} (hbase : base.toInt = x) (hl : l < 2 ^ 30) (hlow : 0 ≤ x)
    (hhigh : x < 2 ^ 31) :
    (base + scoreGapStart + scoreGapExt * (clampI32 (l + 1) - 2)).toInt = x + (-3 - ((l : ℤ) - 1)) := by
  have h₁ : -2 ^ 31 ≤ ((l + 1 : ℕ) : ℤ) - 2 ∧ ((l + 1 : ℕ) : ℤ) - 2 < 2 ^ 31 := by omega
  have h₂ : -2 ^ 31 ≤ -1 * (((l + 1 : ℕ) : ℤ) - 2) ∧ -1 * (((l + 1 : ℕ) : ℤ) - 2) < 2 ^ 31 := by omega
  have h₃ : -2 ^ 31 ≤ x + -3 ∧ x + -3 < 2 ^ 31 := by omega
  have h₄ : -2 ^ 31 ≤ x + -3 + -1 * (((l + 1 : ℕ) : ℤ) - 2) ∧ x + -3 + -1 * (((l + 1 : ℕ) : ℤ) - 2) < 2 ^ 31 := by omega
  have hvalue : x + -3 + -1 * (((l + 1 : ℕ) : ℤ) - 2) = x + (-3 - ((l : ℤ) - 1)) := by omega
  have htwo : (2 : Int32).toInt = 2 := by decide
  have hsub := toInt_sub_eq (toInt_clampI32 (n := l + 1) (by omega)) htwo h₁.1 h₁.2
  have hmul := toInt_mul_eq toInt_scoreGapExt hsub h₂.1 h₂.2
  have hopen := toInt_add_eq hbase toInt_scoreGapStart h₃.1 h₃.2
  rw [toInt_add_eq hopen hmul h₄.1 h₄.2, hvalue]

/-! ## Cells -/

/-- The cell is a best value with its place, or empty if there is none. -/
def Cell.Holds (c : Cell) : Option (ℤ × ℕ) → Prop
  | none => c = .empty
  | some best => c.score.toInt = best.1 ∧ c.parent = best.2 ∧ -2 ^ 30 < best.1

theorem Cell.Holds.improve {c : Cell} {best : Option (ℤ × ℕ)} {score : Int32} {x : ℤ} {k : ℕ} (h : c.Holds best)
    (hx : score.toInt = x) (hlow : -2 ^ 30 < x) : (c.improve score k).Holds (keepBetter best (some x) k) := by
  cases best with
  | none =>
    subst h
    have hlt : Cell.empty.score < score := by
      rw [Int32.lt_iff_toInt_lt, hx]
      simpa [Cell.empty] using hlow
    rw [Cell.improve, if_pos hlt]
    exact ⟨hx, rfl, hlow⟩
  | some best =>
    obtain ⟨hscore, hparent, hbest⟩ := h
    have hiff : c.score < score ↔ best.1 < x := by rw [Int32.lt_iff_toInt_lt, hx, hscore]
    simp only [Cell.improve, keepBetter, hiff]
    split
    · exact ⟨hx, rfl, hlow⟩
    · exact ⟨hscore, hparent, hbest⟩

/-- The scores of texts of these lengths stay between the sentinel and the largest number. -/
def ScoresFit (m n : ℕ) : Prop := 28 * m + n + 4 < 2 ^ 31 ∧ n ≤ 2 ^ 30

section

variable {f : CharFunctions} {needle haystack : Text}

/-- The cell at a place of a layer. -/
def CellHolds (L : Layers) (i j : ℕ) (c : Cell) : Prop :=
  match L.score i j with
  | none => c = .empty
  | some s => c.score.toInt = s ∧ -2 ^ 30 < s ∧ ∀ i', i = i' + 1 → ∃ x, L.before i' j = some (x, c.parent)

/-- A row that is filled up to `j`. -/
structure RowFilled (L : Layers) (n i j : ℕ) (row : List Cell) : Prop where
  length : row.length = n
  filled : ∀ k < j, CellHolds L i k (cellAt row k)
  rest : ∀ k, j ≤ k → cellAt row k = .empty

/-- The whole row. -/
abbrev RowHolds (L : Layers) (n i : ℕ) (row : List Cell) : Prop := RowFilled L n i n row

variable {L : Layers} {n i j k : ℕ} {row prev : List Cell} {s : ℤ} {c : Cell}

theorem CellHolds.empty (h : CellHolds L i j c) (hs : L.score i j = none) : c = .empty := by
  rw [CellHolds, hs] at h
  exact h

theorem CellHolds.scored (h : CellHolds L i j c) (hs : L.score i j = some s) :
    c.score.toInt = s ∧ -2 ^ 30 < s ∧ ∀ i', i = i' + 1 → ∃ x, L.before i' j = some (x, c.parent) := by
  rw [CellHolds, hs] at h
  exact h

/-- The sentinel is no score. -/
theorem CellHolds.unreachable_iff (h : CellHolds L i j c) : c.score = unreachable ↔ L.score i j = none := by
  cases hs : L.score i j with
  | none => exact iff_of_true (by rw [h.empty hs]; rfl) rfl
  | some s =>
    obtain ⟨hscore, hlow, -⟩ := h.scored hs
    refine iff_of_false (fun heq => ?_) (Option.some_ne_none s)
    rw [heq, toInt_unreachable] at hscore
    omega

/-- Before its own column a row is empty. -/
theorem RowFilled.start (L : Layers) (n i : ℕ) : RowFilled L n i i (List.replicate n .empty) := by
  have hempty : ∀ k, cellAt (List.replicate n .empty) k = .empty := by
    intro k
    rw [cellAt, List.getD_eq_getElem?_getD, List.getElem?_replicate]
    split <;> rfl
  refine ⟨List.length_replicate, fun k hk => ?_, fun k _ => hempty k⟩
  rw [CellHolds, Layers.score_eq_none_of_lt hk]
  exact hempty k

theorem RowFilled.set (h : RowFilled L n i j row) (hj : j < n) (hc : CellHolds L i j c) :
    RowFilled L n i (j + 1) (row.set j c) := by
  have hget : ∀ k, cellAt (row.set j c) k = if j = k then c else cellAt row k := by
    intro k
    rw [cellAt, List.getD_eq_getElem?_getD, List.getElem?_set]
    split
    · rename_i hjk
      subst hjk
      rw [if_pos (h.length ▸ hj)]
      rfl
    · rw [cellAt, List.getD_eq_getElem?_getD]
  refine ⟨by rw [List.length_set, h.length], fun k hk => ?_, fun k hk => ?_⟩
  · rw [hget]
    split
    · rename_i hjk
      exact hjk ▸ hc
    · exact h.filled k (by omega)
  · rw [hget, if_neg (by omega)]
    exact h.rest k (by omega)

/-- A column without a match stays empty. -/
theorem RowFilled.skip (h : RowFilled L n i j row) (hs : L.score i j = none) : RowFilled L n i (j + 1) row := by
  refine ⟨h.length, fun k hk => ?_, fun k hk => h.rest k (by omega)⟩
  rcases Nat.lt_succ_iff_lt_or_eq.1 hk with hk | rfl
  · exact h.filled k hk
  · rw [CellHolds, hs]
    exact h.rest k le_rfl

/-! ## Predecessors -/

/-- What the running best compares: the scores, without what every gap to the column has in common. -/
def gapBase (L : Layers) (i k : ℕ) : Option ℤ := (L.score i k).map (· + (k : ℤ))

/-- What the places of layer `i` give to one behind them. -/
def reach (L : Layers) (i j k : ℕ) : Option ℤ := (L.score i k).map (· + L.step k j)

theorem Layers.before_eq (L : Layers) (i j : ℕ) : L.before i j = firstBest (reach L i j) j := rfl

end

section

variable {f : CharFunctions} {needle haystack : Text} {i j k : ℕ} {row prev : List Cell} {s x : ℤ} {c bestGap : Cell}

theorem gapScore_far (h : k + 1 < j) : gapScore k j = k + (-3 - ((j : ℤ) - 2)) := by
  rw [gapScore, if_neg (by omega), toInt_scoreGapStart, toInt_scoreGapExt]
  omega

theorem gapScore_next (k : ℕ) : gapScore k (k + 1) = 4 := by
  rw [gapScore, if_pos rfl]
  decide

/-- The best gap to a column is the running best, with what all gaps to the column have in common. -/
theorem firstBest_reach (L : Layers) (hstep : L.step = gapScore) (i l : ℕ) :
    firstBest (reach L i (l + 1)) l = (firstBest (gapBase L i) l).map fun best =>
      (best.1 + (-3 - ((l : ℤ) - 1)), best.2) := by
  rw [← firstBest_add]
  refine firstBest_congr fun k hk => ?_
  rw [reach, gapBase, Option.map_map, hstep, gapScore_far (by omega)]
  refine congrArg (fun g => (L.score i k).map g) (funext fun s => ?_)
  simp only [Function.comp]
  push_cast
  omega

/-- A score in the table. -/
theorem score_bounds (h : (needleLayers f needle haystack).score i j = some s) :
    15 * (i + 1 : ℤ) - j ≤ s ∧ s ≤ 28 * (i + 1 : ℤ) + 4 ∧ i < needle.length ∧ j < haystack.length := by
  have hpath := Layers.path_trace h
  obtain ⟨hlow, hhigh⟩ := path_bounds hpath
  obtain ⟨w, hw⟩ := hpath.worth_isSome
  obtain ⟨_, _, hn, hh, -⟩ := worth_eq_some.1 hw
  exact ⟨hlow, hhigh, (List.getElem?_eq_some_iff.1 hn).1, (List.getElem?_eq_some_iff.1 hh).1⟩

/-- The running best takes in the column two before. -/
theorem advanceGap_holds (hfit : ScoresFit needle.length haystack.length)
    (hprev : RowHolds (needleLayers f needle haystack) haystack.length i prev) (hj : j < haystack.length)
    (h : bestGap.Holds (firstBest (gapBase (needleLayers f needle haystack) i) (j - 2))) :
    (advanceGap (i + 1) j prev bestGap).Holds (firstBest (gapBase (needleLayers f needle haystack) i) (j - 1)) := by
  rcases Nat.lt_or_ge j 2 with hsmall | hlarge
  · have hnone : j - 1 = j - 2 := by omega
    rw [advanceGap, if_neg (by omega), hnone]
    exact h
  · obtain ⟨l, rfl⟩ := Nat.exists_eq_add_of_le' hlarge
    have hcell := hprev.filled l (by omega)
    have hnext : l + 2 - 1 = l + 1 := by omega
    rw [Nat.add_sub_cancel] at h
    rw [advanceGap, if_pos ⟨by omega, hlarge⟩, Nat.add_sub_cancel, hnext, firstBest]
    dsimp only
    cases hs : (needleLayers f needle haystack).score i l with
    | none =>
      have hbase : gapBase (needleLayers f needle haystack) i l = none := by rw [gapBase, hs]; rfl
      rw [hcell.unreachable_iff.2 hs, if_neg (by simp), hbase, keepBetter_none]
      exact h
    | some s =>
      obtain ⟨hscore, hlow, -⟩ := hcell.scored hs
      obtain ⟨hlowest, hhighest, hi, -⟩ := score_bounds hs
      obtain ⟨hfit₁, hfit₂⟩ := hfit
      have hbase : gapBase (needleLayers f needle haystack) i l = some (s + l) := by rw [gapBase, hs]; rfl
      have hne : (cellAt prev l).score ≠ unreachable := fun heq => by
        rw [hcell.unreachable_iff.1 heq] at hs
        cases hs
      have hvalue : ((cellAt prev l).score - scoreGapExt * clampI32 l).toInt = s + l :=
        toInt_gapBase hscore (by omega) hlow (by omega)
      rw [if_pos hne, hbase]
      exact h.improve hvalue (by omega)

theorem bestOfGaps_holds {l : ℕ} (hfit : ScoresFit needle.length haystack.length) (hi : i < needle.length)
    (hl : l < haystack.length) (h : bestGap.Holds (firstBest (gapBase (needleLayers f needle haystack) i) l)) :
    (bestOfGaps (l + 1) bestGap).Holds (firstBest (reach (needleLayers f needle haystack) i (l + 1)) l) := by
  obtain ⟨hfit₁, hfit₂⟩ := hfit
  rw [firstBest_reach _ rfl, bestOfGaps]
  cases hbest : firstBest (gapBase (needleLayers f needle haystack) i) l with
  | none =>
    rw [hbest] at h
    have hempty : bestGap = .empty := h
    have heq : bestGap.score = unreachable := by rw [hempty, Cell.empty]
    rw [if_neg (not_not.2 heq)]
    rfl
  | some best =>
    obtain ⟨x, k⟩ := best
    obtain ⟨hk, hx, -⟩ := firstBest_spec hbest
    obtain ⟨s, hs, rfl⟩ := Option.map_eq_some_iff.1 hx
    obtain ⟨hlowest, hhighest, -, -⟩ := score_bounds hs
    rw [hbest] at h
    obtain ⟨hscore, hparent, -⟩ := h
    dsimp only at hscore hparent
    have hne : bestGap.score ≠ unreachable := fun heq => by
      rw [heq, toInt_unreachable] at hscore
      omega
    have hvalue := toInt_gapToColumn (l := l) hscore (by omega) (by omega) (by omega)
    rw [if_pos hne]
    exact ⟨hvalue, hparent, by dsimp only; omega⟩

/-- A cell that is no sentinel has a score. -/
theorem CellHolds.ne_unreachable {L : Layers} (h : CellHolds L i j c) (hs : L.score i j = some s) :
    c.score ≠ unreachable := by
  intro heq
  rw [h.unreachable_iff.1 heq] at hs
  cases hs

theorem reach_of_none {L : Layers} (hs : L.score i k = none) : reach L i j k = none := by rw [reach, hs]; rfl

theorem reach_of_some {L : Layers} (hs : L.score i k = some s) : reach L i j k = some (s + L.step k j) := by
  rw [reach, hs]
  rfl

/-- The best predecessor by the running best is the best one of all. -/
theorem bestPredecessor_holds (hfit : ScoresFit needle.length haystack.length)
    (hprev : RowHolds (needleLayers f needle haystack) haystack.length i prev) (hi : i < needle.length)
    (hj : j < haystack.length) (h : bestGap.Holds (firstBest (gapBase (needleLayers f needle haystack) i) (j - 1))) :
    (bestPredecessor j prev bestGap).Holds ((needleLayers f needle haystack).before i j) := by
  cases j with
  | zero =>
    have hempty : bestGap = .empty := h
    have heq : bestGap.score = unreachable := by rw [hempty, Cell.empty]
    rw [bestPredecessor, if_neg (Nat.lt_irrefl 0), bestOfGaps, if_neg (not_not.2 heq)]
    rfl
  | succ l =>
    have hgaps := bestOfGaps_holds hfit hi (by omega) h
    have hcell := hprev.filled l (by omega)
    rw [bestPredecessor, if_pos (Nat.succ_pos l), Nat.add_sub_cancel, Layers.before_eq, firstBest]
    dsimp only
    cases hs : (needleLayers f needle haystack).score i l with
    | none =>
      rw [hcell.unreachable_iff.2 hs, if_neg (not_not.2 rfl), reach_of_none hs, keepBetter_none]
      exact hgaps
    | some s =>
      obtain ⟨hscore, hlow, -⟩ := hcell.scored hs
      have hbounds := score_bounds hs
      have hfits := hfit.1
      have hvalue := toInt_add_eq hscore toInt_bonusConsecutive (by omega) (by omega)
      have hstep : (needleLayers f needle haystack).step l (l + 1) = 4 := gapScore_next l
      rw [if_pos (hcell.ne_unreachable hs), reach_of_some hs, hstep]
      exact hgaps.improve hvalue (by omega)

theorem stepScore_eq (hj : j < 2 ^ 30) (hk : k < j) : (stepScore k j).toInt = gapScore k j := by
  rw [stepScore, gapScore]
  by_cases hnext : k + 1 = j
  · rw [if_pos (by omega), if_pos hnext]
  · have h₁ : -2 ^ 31 ≤ ((j - k - 1 : ℕ) : ℤ) - 1 ∧ ((j - k - 1 : ℕ) : ℤ) - 1 < 2 ^ 31 := by omega
    have h₂ : -2 ^ 31 ≤ -1 * (((j - k - 1 : ℕ) : ℤ) - 1) ∧ -1 * (((j - k - 1 : ℕ) : ℤ) - 1) < 2 ^ 31 := by omega
    have h₃ : -2 ^ 31 ≤ -3 + -1 * (((j - k - 1 : ℕ) : ℤ) - 1) ∧ -3 + -1 * (((j - k - 1 : ℕ) : ℤ) - 1) < 2 ^ 31 := by
      omega
    have hvalue : -3 + -1 * (((j - k - 1 : ℕ) : ℤ) - 1) = -3 + -1 * ((j : ℤ) - k - 2) := by omega
    have hone : (1 : Int32).toInt = 1 := by decide
    have hsub := toInt_sub_eq (toInt_clampI32 (n := j - k - 1) (by omega)) hone h₁.1 h₁.2
    have hmul := toInt_mul_eq toInt_scoreGapExt hsub h₂.1 h₂.2
    rw [if_neg (by omega), if_neg hnext, toInt_add_eq toInt_scoreGapStart hmul h₃.1 h₃.2, toInt_scoreGapStart,
      toInt_scoreGapExt, hvalue]

/-- The scan of the reference finds the best predecessor. -/
theorem scanPredecessors_holds (hfit : ScoresFit needle.length haystack.length)
    (hprev : RowHolds (needleLayers f needle haystack) haystack.length i prev) (hj : j < haystack.length)
    (hij : i < j) :
    (scanPredecessors (i + 1) j prev).Holds ((needleLayers f needle haystack).before i j) := by
  obtain ⟨hfit₁, hfit₂⟩ := hfit
  rw [Layers.before_eq, scanPredecessors, Nat.add_sub_cancel]
  refine Loop.foldl_range'_inv (fun k (best : Cell) =>
    best.Holds (firstBest (reach (needleLayers f needle haystack) i j) k)) hij.le
    ?_ fun k best hk hkj hbest => ?_
  · have hnone : firstBest (reach (needleLayers f needle haystack) i j) i = none :=
      firstBest_eq_none.2 fun k hk => reach_of_none (Layers.score_eq_none_of_lt hk)
    rw [hnone]
    rfl
  · have hcell := hprev.filled k (by omega)
    rw [firstBest]
    dsimp only
    cases hs : (needleLayers f needle haystack).score i k with
    | none =>
      rw [if_pos (hcell.unreachable_iff.2 hs), reach_of_none hs, keepBetter_none]
      exact hbest
    | some s =>
      obtain ⟨hscore, hlow, -⟩ := hcell.scored hs
      have hbounds := score_bounds hs
      have hgap := gapScore_bounds hkj
      have hstep : (needleLayers f needle haystack).step k j = gapScore k j := rfl
      have hvalue := toInt_add_eq hscore (stepScore_eq (by omega) hkj) (by omega) (by omega)
      rw [if_neg (hcell.ne_unreachable hs), reach_of_some hs, hstep]
      exact hbest.improve hvalue (by omega)

/-! ## Rows -/

variable {n : Char} {best : Option (ℤ × ℕ)}

theorem worth_of_match (hn : needle[i]? = some n) (hm : (haystack[j]?.map (charMatches f n)).getD false = true) :
    (needleLayers f needle haystack).worth i j = some (placeScore f haystack j) := by
  cases hj : haystack[j]? with
  | none =>
    rw [hj] at hm
    cases hm
  | some h =>
    rw [hj] at hm
    exact worth_eq_some.2 ⟨n, h, hn, hj, hm, rfl⟩

theorem score_of_mismatch (hn : needle[i]? = some n) (hm : ¬ (haystack[j]?.map (charMatches f n)).getD false = true) :
    (needleLayers f needle haystack).score i j = none := by
  cases hs : (needleLayers f needle haystack).score i j with
  | none => rfl
  | some s =>
    obtain ⟨w, hw⟩ := (Layers.path_trace hs).worth_isSome
    obtain ⟨n', h, hn', hj, hmatch, -⟩ := worth_eq_some.1 hw
    rw [hn] at hn'
    cases hn'
    rw [hj] at hm
    exact absurd hmatch hm

/-- A match in the first row. -/
theorem firstCell_holds (hs : (needleLayers f needle haystack).worth 0 j = some (placeScore f haystack j)) :
    CellHolds (needleLayers f needle haystack) 0 j ⟨scoreMatch + bonusAt f haystack j, usizeMax⟩ := by
  obtain ⟨hlow, hhigh, -⟩ := placeScore_bounds f haystack j
  have hscore : (needleLayers f needle haystack).score 0 j = some (placeScore f haystack j) := hs
  rw [CellHolds, hscore]
  exact ⟨toInt_add_eq rfl rfl (by rw [placeScore] at hlow; omega) (by rw [placeScore] at hhigh; omega), by omega,
    fun i' hi' => by cases hi'⟩

/-- A match in a later row, from its best predecessor. -/
theorem reachedFrom_holds (hfit : ScoresFit needle.length haystack.length)
    (hw : (needleLayers f needle haystack).worth (i + 1) j = some (placeScore f haystack j))
    (h : c.Holds ((needleLayers f needle haystack).before i j)) :
    CellHolds (needleLayers f needle haystack) (i + 1) j (reachedFrom f haystack c j) := by
  obtain ⟨hfit₁, hfit₂⟩ := hfit
  cases hbefore : (needleLayers f needle haystack).before i j with
  | none =>
    have hscore : (needleLayers f needle haystack).score (i + 1) j = none := by
      rw [Layers.score_succ, hw, hbefore]
      rfl
    rw [hbefore] at h
    have hempty : c = .empty := h
    have hnot : ¬ unreachable < c.score := by
      rw [hempty, Int32.lt_iff_toInt_lt]
      exact lt_irrefl _
    rw [CellHolds, hscore, reachedFrom, if_neg hnot]
  | some best =>
    obtain ⟨x, k⟩ := best
    have hscore : (needleLayers f needle haystack).score (i + 1) j = some (x + placeScore f haystack j) := by
      rw [Layers.score_succ, hw, hbefore]
      rfl
    obtain ⟨hlow, hhigh, hi, hj⟩ := score_bounds hscore
    obtain ⟨hplace, hplace', -⟩ := placeScore_bounds f haystack j
    rw [hbefore] at h
    obtain ⟨hx, hparent, hbest⟩ := h
    dsimp only at hx hbest
    have hreached : unreachable < c.score := by
      rw [Int32.lt_iff_toInt_lt, hx, toInt_unreachable]
      exact hbest
    rw [placeScore] at hlow hhigh hplace hplace'
    obtain ⟨hbonus, -, -⟩ := bonusAt_bounds f haystack j
    have hsixteen : scoreMatch.toInt = 16 := by decide
    have hmatch := toInt_add_eq hx rfl (b := scoreMatch) (by omega) (by omega)
    have hall := toInt_add_eq hmatch rfl (b := bonusAt f haystack j) (by omega) (by omega)
    rw [CellHolds, hscore, reachedFrom, if_pos hreached]
    refine ⟨by rw [hall, placeScore, add_assoc], by rw [placeScore]; omega, fun i' hi' => ?_⟩
    cases hi'
    exact ⟨x, hbefore.trans (congrArg (fun k => some (x, k)) hparent.symm)⟩

/-- A way to fill a row of the table. -/
def FillsRows (f : CharFunctions) (needle haystack : Text) (fill : ℕ → Char → List Cell → List Cell) : Prop :=
  ∀ i n prev, needle[i]? = some n → i ≤ haystack.length →
    (∀ i', i = i' + 1 → RowHolds (needleLayers f needle haystack) haystack.length i' prev) →
    RowHolds (needleLayers f needle haystack) haystack.length i (fill i n prev)

theorem fillRow_fills (hfit : ScoresFit needle.length haystack.length) :
    FillsRows f needle haystack (fillRow f haystack) := by
  intro i n prev hn hi hprev
  have inv := Loop.foldl_range'_inv (f := fillStep f haystack i n prev)
    (s := ⟨.empty, List.replicate haystack.length .empty⟩)
    (fun j (c : RowCursor) => RowFilled (needleLayers f needle haystack) haystack.length i j c.row ∧
      ∀ i', i = i' + 1 → c.bestGap.Holds (firstBest (gapBase (needleLayers f needle haystack) i') (j - 2))) hi
  refine (inv ⟨.start _ _ _, ?_⟩ ?_).1
  · rintro i' rfl
    have hnone : firstBest (gapBase (needleLayers f needle haystack) i') (i' + 1 - 2) = none := by
      refine firstBest_eq_none.2 fun k hk => ?_
      rw [gapBase, Layers.score_eq_none_of_lt (by omega)]
      rfl
    rw [hnone]
    rfl
  · intro j c hij hj ⟨hrow, hgap⟩
    have hgap' : ∀ i', i = i' + 1 →
        (advanceGap i j prev c.bestGap).Holds (firstBest (gapBase (needleLayers f needle haystack) i') (j - 1)) := by
      rintro i' rfl
      exact advanceGap_holds hfit (hprev i' rfl) hj (hgap i' rfl)
    rw [fillStep]
    dsimp only
    by_cases hm : (haystack[j]?.map (charMatches f n)).getD false = true
    · rw [if_pos hm]
      refine ⟨hrow.set hj ?_, hgap'⟩
      have hw := worth_of_match hn hm
      cases i with
      | zero => exact firstCell_holds hw
      | succ i =>
        have hi' : i + 1 < needle.length := (List.getElem?_eq_some_iff.1 hn).1
        rw [if_neg (Nat.succ_ne_zero i)]
        exact reachedFrom_holds hfit hw (bestPredecessor_holds hfit (hprev i rfl) (by omega) hj (hgap' i rfl))
    · rw [if_neg hm]
      exact ⟨hrow.skip (score_of_mismatch hn hm), hgap'⟩

theorem fillRowReference_fills (hfit : ScoresFit needle.length haystack.length) :
    FillsRows f needle haystack (fillRowReference f haystack) := by
  intro i n prev hn hi hprev
  refine Loop.foldl_range'_inv (fun j row => RowFilled (needleLayers f needle haystack) haystack.length i j row) hi
    (.start _ _ _) fun j row hij hj hrow => ?_
  rw [fillStepReference]
  by_cases hm : (haystack[j]?.map (charMatches f n)).getD false = true
  · rw [if_pos hm]
    refine hrow.set hj ?_
    have hw := worth_of_match hn hm
    cases i with
    | zero => exact firstCell_holds hw
    | succ i =>
      rw [if_neg (Nat.succ_ne_zero i)]
      exact reachedFrom_holds hfit hw (scanPredecessors_holds hfit (hprev i rfl) hj hij)
  · rw [if_neg hm]
    exact hrow.skip (score_of_mismatch hn hm)

/-! ## The whole table -/

/-- The rows for the rest of the needle. -/
theorem fillRows_hold {fill : ℕ → Char → List Cell → List Cell} (hfill : FillsRows f needle haystack fill)
    (hle : needle.length ≤ haystack.length) (prev : List Cell) (rest : Text) (hrest : needle.drop i = rest)
    (hprev : ∀ i', i = i' + 1 → RowHolds (needleLayers f needle haystack) haystack.length i' prev) :
    ∀ l < rest.length, RowHolds (needleLayers f needle haystack) haystack.length (i + l)
      ((fillRows fill i prev rest).getD l []) := by
  induction rest generalizing i prev with
  | nil => exact fun l hl => absurd hl (Nat.not_lt_zero l)
  | cons n rest ih =>
    have hi : i < needle.length := by
      by_contra hge
      rw [List.drop_eq_nil_of_le (not_lt.1 hge)] at hrest
      cases hrest
    rw [List.drop_eq_getElem_cons hi] at hrest
    obtain ⟨hn, hrest⟩ := List.cons.inj hrest
    have hrow := hfill i n prev (hn ▸ List.getElem?_eq_getElem hi) (by omega) hprev
    intro l hl
    cases l with
    | zero => exact hrow
    | succ l =>
      have hlater := ih _ hrest (fun i' hi' => by cases hi'; exact hrow) l (Nat.lt_of_succ_lt_succ hl)
      have hsum : i + (l + 1) = i + 1 + l := by omega
      rw [hsum]
      exact hlater

theorem bestEnd_holds {m : ℕ} {last : List Cell} (hm : m ≤ haystack.length)
    (hlast : RowHolds (needleLayers f needle haystack) haystack.length m last) :
    (bestEnd haystack (m + 1) last).Holds (firstBest ((needleLayers f needle haystack).score m) haystack.length) := by
  rw [bestEnd, Nat.add_sub_cancel]
  refine Loop.foldl_range'_inv
    (fun j (best : Cell) => best.Holds (firstBest ((needleLayers f needle haystack).score m) j)) hm ?_
      fun j best hmj hj h => ?_
  · rw [firstBest_eq_none.2 fun k hk => Layers.score_eq_none_of_lt hk]
    rfl
  · have hcell := hlast.filled j hj
    rw [firstBest]
    cases hs : (needleLayers f needle haystack).score m j with
    | none =>
      have hnot : ¬ best.score < (cellAt last j).score := by
        rw [hcell.empty hs, Int32.lt_iff_toInt_lt, not_lt]
        cases hb : firstBest ((needleLayers f needle haystack).score m) j with
        | none =>
          rw [hb] at h
          have hempty : best = .empty := h
          rw [hempty]
        | some b =>
          rw [hb] at h
          rw [h.1, Cell.empty, toInt_unreachable]
          exact h.2.2.le
      rw [Cell.improve, if_neg hnot, keepBetter_none]
      exact h
    | some s =>
      obtain ⟨hscore, hlow, -⟩ := hcell.scored hs
      exact h.improve hscore hlow

/-- The indices are read off as the best path is. -/
theorem traceBack_eq {rows : List (List Cell)} {indices : List UInt32}
    (hrows : ∀ l ≤ i, RowHolds (needleLayers f needle haystack) haystack.length l (rows.getD l []))
    (hs : (needleLayers f needle haystack).score i j = some s) :
    traceBack rows i j indices = .ok (((needleLayers f needle haystack).trace i j).map clampU32 ++ indices) := by
  induction i generalizing j s indices with
  | zero => rfl
  | succ i ih =>
    have hrow := hrows (i + 1) le_rfl
    obtain ⟨-, -, -, hj⟩ := score_bounds hs
    obtain ⟨-, -, hparent⟩ := (hrow.filled j hj).scored hs
    obtain ⟨x, hbefore⟩ := hparent i rfl
    obtain ⟨-, s', hs', -⟩ := Layers.before_spec hbefore
    have hlt : j < (rows.getD (i + 1) []).length := hrow.length.symm ▸ hj
    have hcell : cellAt (rows.getD (i + 1) []) j = (rows.getD (i + 1) [])[j] := by
      rw [cellAt, List.getD_eq_getElem?_getD, List.getElem?_eq_getElem hlt]
      rfl
    rw [traceBack, List.getElem?_eq_getElem hlt]
    dsimp only
    rw [← hcell, ih (fun l hl => hrows l (by omega)) hs', Layers.trace, hbefore]
    simp

/-! ## The best match -/

theorem Embeds.length_le {ps : List ℕ} (h : Embeds f needle haystack ps) : needle.length ≤ haystack.length := by
  cases hm : needle.length with
  | zero => exact Nat.zero_le _
  | succ m =>
    have hlast : m < ps.length := by rw [h.length]; omega
    obtain ⟨w, hw⟩ := (h.path_take hlast).worth_isSome
    obtain ⟨_, _, _, hh, -⟩ := worth_eq_some.1 hw
    have hplace := (h.path_take hlast).le_place
    have hlt := (List.getElem?_eq_some_iff.1 hh).1
    omega

/-- The match that the best score belongs to. -/
def bestMatch (f : CharFunctions) (needle haystack : Text) : Option FuzzyMatch :=
  if needle = [] then some ⟨0, []⟩
  else (firstBest ((needleLayers f needle haystack).score (needle.length - 1)) haystack.length).map fun best =>
    ⟨Int32.ofInt best.1, ((needleLayers f needle haystack).trace (needle.length - 1) best.2).map clampU32⟩

/-- The best score is one of an embedding, and no embedding scores more. -/
theorem firstBest_score {x : ℤ} (hne : needle ≠ [])
    (h : firstBest ((needleLayers f needle haystack).score (needle.length - 1)) haystack.length = some (x, k)) :
    Embeds f needle haystack ((needleLayers f needle haystack).trace (needle.length - 1) k) ∧
      embeddingScore f haystack ((needleLayers f needle haystack).trace (needle.length - 1) k) = x ∧
      ∀ ps, Embeds f needle haystack ps → embeddingScore f haystack ps ≤ x := by
  have hlength := List.length_pos_iff.2 hne
  obtain ⟨hk, hx, hbest⟩ := firstBest_spec h
  obtain ⟨hembeds, hscore, -⟩ := embeds_of_path (Layers.path_trace hx)
  rw [Nat.sub_add_cancel hlength, List.take_length] at hembeds
  refine ⟨hembeds, hscore, fun ps hps => ?_⟩
  have hlast : needle.length - 1 < ps.length := by rw [hps.length]; omega
  have hall : ps.take (needle.length - 1 + 1) = ps := List.take_of_length_le (by rw [hps.length]; omega)
  obtain ⟨t, ht, hle⟩ := (hps.path_take hlast).le_score
  obtain ⟨-, -, -, hplace⟩ := score_bounds ht
  rw [hall] at hle
  exact hle.trans (hbest _ hplace t ht)

theorem bestMatch_eq_none : bestMatch f needle haystack = none ↔ ¬ ∃ ps, Embeds f needle haystack ps := by
  rw [bestMatch]
  split
  · rename_i hnil
    subst hnil
    exact iff_of_false (Option.some_ne_none _) (not_not.2 ⟨[], embeds_nil⟩)
  · rename_i hne
    have hlength := List.length_pos_iff.2 hne
    rw [Option.map_eq_none_iff, firstBest_eq_none]
    constructor
    · rintro hnone ⟨ps, hps⟩
      have hlast : needle.length - 1 < ps.length := by rw [hps.length]; omega
      obtain ⟨t, ht, -⟩ := (hps.path_take hlast).le_score
      obtain ⟨-, -, -, hplace⟩ := score_bounds ht
      rw [hnone _ hplace] at ht
      cases ht
    · intro hnot k hk
      cases hs : (needleLayers f needle haystack).score (needle.length - 1) k with
      | none => rfl
      | some s =>
        obtain ⟨hembeds, -, -⟩ := embeds_of_path (Layers.path_trace hs)
        rw [Nat.sub_add_cancel hlength, List.take_length] at hembeds
        exact absurd ⟨_, hembeds⟩ hnot

/-- However the rows are filled, the best match is found. -/
theorem fuzzyMatchWith_eq (hfit : ScoresFit needle.length haystack.length) {fill : ℕ → Char → List Cell → List Cell}
    (hfill : FillsRows f needle haystack fill) :
    fuzzyMatchWith f haystack fill needle = .ok (bestMatch f needle haystack) := by
  rw [fuzzyMatchWith]
  by_cases hne : needle = []
  · rw [if_pos hne, bestMatch, if_pos hne]
  · rw [if_neg hne]
    by_cases hsub : isSubsequence f needle haystack = true
    · rw [if_neg (not_not.2 hsub)]
      obtain ⟨ps, hps⟩ := isSubsequence_iff.1 hsub
      have hle := hps.length_le
      obtain ⟨m, hm⟩ : ∃ m, needle.length = m + 1 := Nat.exists_eq_succ_of_ne_zero (mt List.length_eq_zero_iff.1 hne)
      have hrows := fillRows_hold hfill hle [] needle List.drop_zero (fun i' hi' => by cases hi')
      simp only [Nat.zero_add] at hrows
      have hend := bestEnd_holds (m := m) (by omega) (hrows m (by omega))
      have hsome : bestMatch f needle haystack ≠ none := fun hnone => bestMatch_eq_none.1 hnone ⟨ps, hps⟩
      rw [bestMatch, if_neg hne, hm, Nat.add_sub_cancel] at hsome ⊢
      dsimp only
      rw [Nat.add_sub_cancel]
      cases hbest : firstBest ((needleLayers f needle haystack).score m) haystack.length with
      | none => exact absurd (by rw [hbest]; rfl) hsome
      | some best =>
        obtain ⟨x, k⟩ := best
        obtain ⟨hk, hx, -⟩ := firstBest_spec hbest
        rw [hbest] at hend
        obtain ⟨hscore, hparent, -⟩ := hend
        dsimp only at hscore hparent ⊢
        have hplace : (bestEnd haystack (m + 1) ((fillRows fill 0 [] needle).getD m [])).parent ≠ usizeMax := by
          obtain ⟨-, hfit₂⟩ := hfit
          rw [hparent, usizeMax]
          omega
        rw [if_neg hplace, hparent, traceBack_eq (fun l hl =>
          hrows l (by omega)) hx, ← hscore, List.append_nil, Option.map_some]
        rw [Int32.ofInt_toInt]
        rfl
    · rw [if_pos hsub]
      have hnone := bestMatch_eq_none.2 fun hps => hsub (isSubsequence_iff.2 hps)
      rw [hnone]

theorem fuzzyMatch_eq (hfit : ScoresFit needle.length haystack.length) :
    fuzzyMatch f needle haystack = .ok (bestMatch f needle haystack) := fuzzyMatchWith_eq hfit (fillRow_fills hfit)

theorem fuzzyMatchReference_eq (hfit : ScoresFit needle.length haystack.length) :
    fuzzyMatchReference f needle haystack = .ok (bestMatch f needle haystack) :=
  fuzzyMatchWith_eq hfit (fillRowReference_fills hfit)

/-- The best match is an embedding that scores the most. -/
theorem bestMatch_spec (hfit : ScoresFit needle.length haystack.length) {m : FuzzyMatch}
    (h : bestMatch f needle haystack = some m) :
    Embeds f needle haystack (m.indices.map UInt32.toNat) ∧
      embeddingScore f haystack (m.indices.map UInt32.toNat) = m.score.toInt ∧
      ∀ ps, Embeds f needle haystack ps → embeddingScore f haystack ps ≤ m.score.toInt := by
  rw [bestMatch] at h
  split at h
  · rename_i hnil
    subst hnil
    cases h
    refine ⟨embeds_nil, rfl, fun ps hps => ?_⟩
    rw [List.length_eq_zero_iff.1 hps.length]
    exact le_rfl
  · rename_i hne
    obtain ⟨⟨x, k⟩, hbest, rfl⟩ := Option.map_eq_some_iff.1 h
    obtain ⟨hembeds, hscore, hmost⟩ := firstBest_score hne hbest
    obtain ⟨-, hx, -⟩ := firstBest_spec hbest
    obtain ⟨hlow, hhigh, hlayer, hplace⟩ := score_bounds hx
    obtain ⟨hfit₁, hfit₂⟩ := hfit
    have hvalue : (Int32.ofInt x).toInt = x := Int32.toInt_ofInt_of_le (by omega) (by omega)
    have hindices : (((needleLayers f needle haystack).trace (needle.length - 1) k).map clampU32).map UInt32.toNat =
        (needleLayers f needle haystack).trace (needle.length - 1) k := by
      rw [List.map_map]
      refine (List.map_congr_left fun p hp => ?_).trans (List.map_id _)
      obtain ⟨i, hi, hget⟩ := List.mem_iff_getElem.1 hp
      have hlength := hembeds.length
      obtain ⟨_, hh, -⟩ := hembeds.letters i _ p
        (List.getElem?_eq_getElem (by omega)) (by rw [List.getElem?_eq_getElem hi, hget])
      have hlt := (List.getElem?_eq_some_iff.1 hh).1
      rw [Function.comp, clampU32, if_pos (by omega), UInt32.toNat_ofNat_of_lt' (by rw [UInt32.size]; omega)]
      rfl
    dsimp only
    rw [hindices, hvalue]
    exact ⟨hembeds, hscore, hmost⟩

/-- The matcher finds nothing exactly if there is no embedding, and else one that scores the most; its reference finds
the same. -/
theorem fuzzy_match_optimal (f : CharFunctions) (needle haystack : Text)
    (hfit : ScoresFit needle.length haystack.length) :
    (fuzzyMatch f needle haystack = .ok none ↔ ¬ ∃ ps, Embeds f needle haystack ps) ∧
      (∀ m, fuzzyMatch f needle haystack = .ok (some m) →
        Embeds f needle haystack (m.indices.map UInt32.toNat) ∧
          embeddingScore f haystack (m.indices.map UInt32.toNat) = m.score.toInt ∧
          ∀ ps, Embeds f needle haystack ps → embeddingScore f haystack ps ≤ m.score.toInt) ∧
      (∃ r, fuzzyMatch f needle haystack = .ok r) ∧
      fuzzyMatchReference f needle haystack = fuzzyMatch f needle haystack := by
  rw [fuzzyMatch_eq hfit, fuzzyMatchReference_eq hfit]
  refine ⟨?_, fun m hm => bestMatch_spec hfit (Except.ok.inj hm), ⟨_, rfl⟩, rfl⟩
  rw [Except.ok.injEq, bestMatch_eq_none]

end

/-! ## No index is out of bounds -/

section

variable {f : CharFunctions} {needle haystack : Text} {i j : ℕ} {prev row : List Cell} {c best : Cell} {n : Char}

/-- A cell with a score comes from a cell with a score in the row before. -/
def Cell.Leads (prev : List Cell) (c : Cell) : Prop :=
  c.score ≠ unreachable → (cellAt prev c.parent).score ≠ unreachable

theorem Cell.leads_empty : Cell.empty.Leads prev := fun h => absurd rfl h

theorem Cell.Leads.improve {score : Int32} {k : ℕ} (h : c.Leads prev) (hk : (cellAt prev k).score ≠ unreachable) :
    (c.improve score k).Leads prev := by
  rw [Cell.improve]
  split
  · exact fun _ => hk
  · exact h

theorem advanceGap_leads (h : c.Leads prev) : (advanceGap i j prev c).Leads prev := by
  rw [advanceGap]
  split
  · dsimp only
    split
    · rename_i hk
      exact h.improve hk
    · exact h
  · exact h

theorem bestPredecessor_leads (h : c.Leads prev) : (bestPredecessor j prev c).Leads prev := by
  have hgaps : (bestOfGaps j c).Leads prev := by
    rw [bestOfGaps]
    split
    · rename_i hne
      exact fun _ => h hne
    · exact Cell.leads_empty
  rw [bestPredecessor]
  dsimp only
  split
  · split
    · rename_i hk
      exact hgaps.improve hk
    · exact hgaps
  · exact hgaps

theorem reachedFrom_leads (h : c.Leads prev) : (reachedFrom f haystack c j).Leads prev := by
  rw [reachedFrom]
  split
  · rename_i hlt
    exact fun _ => h fun heq => by
      rw [heq, Int32.lt_iff_toInt_lt] at hlt
      omega
  · exact Cell.leads_empty

/-- The cells of a row but the first. -/
theorem fillRow_leads (hi : 0 < i) (j : ℕ) : (cellAt (fillRow f haystack i n prev) j).Leads prev := by
  have inv : ((List.range' i (haystack.length - i)).foldl (fillStep f haystack i n prev)
      ⟨.empty, List.replicate haystack.length .empty⟩).bestGap.Leads prev ∧
      ∀ k, (cellAt (fillRow f haystack i n prev) k).Leads prev := by
    refine List.foldlRecOn (motive := fun s : RowCursor => s.bestGap.Leads prev ∧ ∀ k, (cellAt s.row k).Leads prev) _ _
      ⟨Cell.leads_empty, fun k => ?_⟩ ?_
    · rw [cellAt, List.getD_eq_getElem?_getD, List.getElem?_replicate]
      split <;> exact Cell.leads_empty
    · rintro s ⟨hgap, hrow⟩ j -
      have hgap' := advanceGap_leads (i := i) (j := j) hgap
      rw [fillStep]
      dsimp only
      split
      · refine ⟨hgap', fun k => ?_⟩
        rw [if_neg (by omega), cellAt, List.getD_eq_getElem?_getD, List.getElem?_set]
        split
        · split
          · exact reachedFrom_leads (bestPredecessor_leads hgap')
          · exact Cell.leads_empty
        · have hk := hrow k
          rwa [cellAt, List.getD_eq_getElem?_getD] at hk
      · exact ⟨hgap', hrow⟩
  exact inv.2 j

/-- Every row leads back into the one before. -/
theorem fillRows_lead (needle : Text) (hi : 0 < i) (l : ℕ) (j : ℕ) :
    (cellAt ((fillRows (fillRow f haystack) i prev needle).getD l []) j).Leads
      (if l = 0 then prev else (fillRows (fillRow f haystack) i prev needle).getD (l - 1) []) := by
  induction needle generalizing i prev l with
  | nil => exact Cell.leads_empty
  | cons n needle ih =>
    cases l with
    | zero => exact fillRow_leads hi j
    | succ l =>
      have hrest := @ih (i + 1) (fillRow f haystack i n prev) (Nat.succ_pos i) l
      cases l with
      | zero => exact hrest
      | succ l => exact hrest

theorem traceBack_total {rows : List (List Cell)} (indices : List UInt32)
    (hrows : ∀ l j, (cellAt (rows.getD (l + 1) []) j).Leads (rows.getD l []))
    (hj : (cellAt (rows.getD i []) j).score ≠ unreachable) : ∃ r, traceBack rows i j indices = .ok r := by
  induction i generalizing j indices with
  | zero => exact ⟨_, rfl⟩
  | succ i ih =>
    cases hcell : (rows.getD (i + 1) [])[j]? with
    | none =>
      rw [cellAt, List.getD_eq_getElem?_getD, hcell] at hj
      exact absurd rfl hj
    | some cell =>
      have heq : cellAt (rows.getD (i + 1) []) j = cell := by
        rw [cellAt, List.getD_eq_getElem?_getD, hcell]
        rfl
      have hlead := hrows i j hj
      rw [heq] at hlead
      rw [traceBack, hcell]
      exact ih _ hlead

/-- The end that is found is in a cell with a score. -/
theorem bestEnd_scored {m : ℕ} {last : List Cell} (h : (bestEnd haystack m last).parent ≠ usizeMax) :
    (cellAt last (bestEnd haystack m last).parent).score ≠ unreachable := by
  have inv : unreachable.toInt ≤ (bestEnd haystack m last).score.toInt ∧
      ((bestEnd haystack m last).parent ≠ usizeMax →
        (cellAt last (bestEnd haystack m last).parent).score ≠ unreachable) := by
    refine List.foldlRecOn (motive := fun best : Cell => unreachable.toInt ≤ best.score.toInt ∧
      (best.parent ≠ usizeMax → (cellAt last best.parent).score ≠ unreachable)) _ _ ⟨le_rfl, fun h => absurd rfl h⟩ ?_
    rintro best ⟨hlow, hbest⟩ j -
    rw [Cell.improve]
    split
    · rename_i hlt
      rw [Int32.lt_iff_toInt_lt] at hlt
      refine ⟨by dsimp only; omega, fun _ heq => ?_⟩
      dsimp only at heq
      rw [heq] at hlt
      omega
    · exact ⟨hlow, hbest⟩
  exact inv.2 h

/-- The matcher always returns. -/
theorem fuzzyMatch_total (f : CharFunctions) (needle haystack : Text) : ∃ r, fuzzyMatch f needle haystack = .ok r := by
  rw [fuzzyMatch, fuzzyMatchWith]
  split
  · exact ⟨_, rfl⟩
  · split
    · exact ⟨_, rfl⟩
    · dsimp only
      split
      · exact ⟨_, rfl⟩
      · rename_i hne _ hend
        obtain ⟨n, needle, rfl⟩ := List.exists_cons_of_ne_nil hne
        have hrows : ∀ l j, (cellAt ((fillRows (fillRow f haystack) 0 [] (n :: needle)).getD (l + 1) []) j).Leads
            ((fillRows (fillRow f haystack) 0 [] (n :: needle)).getD l []) := by
          intro l j
          have hlead : (cellAt ((fillRows (fillRow f haystack) (0 + 1) (fillRow f haystack 0 n []) needle).getD l
            []) j).Leads _ :=
            fillRows_lead needle (Nat.succ_pos 0) l j
          cases l with
          | zero => exact hlead
          | succ l => exact hlead
        obtain ⟨indices, hindices⟩ := traceBack_total [] hrows (bestEnd_scored hend)
        exact ⟨_, congrArg (Except.map _) hindices⟩

end

/-! ## ASCII letters -/

/-- The Unicode tables, as far as ASCII goes. -/
def asciiFunctions : CharFunctions := ⟨Char.isUpper, Char.isLower, Char.isAlphanum, fun c => [c.toLower]⟩

/-- Of two ways to match, the one at the start of a word. -/
theorem fuzzy_match_ascii : fuzzyMatch asciiFunctions "md".toList "amy-dir".toList = .ok (some ⟨36, [1, 4]⟩) ∧
    Embeds asciiFunctions "md".toList "amy-dir".toList [1, 4] := by
  have run : fuzzyMatch asciiFunctions "md".toList "amy-dir".toList = .ok (some ⟨36, [1, 4]⟩) := by decide +kernel
  have hfit : ScoresFit "md".toList.length "amy-dir".toList.length := ⟨by decide, by decide⟩
  exact ⟨run, ((fuzzy_match_optimal asciiFunctions "md".toList "amy-dir".toList hfit).2.1 _ run).1⟩

end Falach
