import Falach.Entry.Fuzzy
/-!
# Embeddings of a needle

What the fuzzy matcher is to find: the places that take a needle into a haystack, and what they score. An embedding is
a path through one layer for each character of the needle.
-/

namespace Falach

open Scoring

variable (f : CharFunctions) (needle haystack : Text)

/-- The places are in order, one for each character of the needle, and each matches its character. -/
structure Embeds (ps : List ℕ) : Prop where
  length : ps.length = needle.length
  increasing : ps.Pairwise (· < ·)
  letters : ∀ (i : ℕ) (n : Char) (p : ℕ), needle[i]? = some n → ps[i]? = some p → ∃ h, haystack[p]? = some h ∧
    charMatches f n h = true

def placeScore (p : ℕ) : ℤ := scoreMatch.toInt + (bonusAt f haystack p).toInt

/-- The bonus of a run, or the penalty of a gap: its first character costs more than the others. -/
def gapScore (k j : ℕ) : ℤ :=
  if k + 1 = j then bonusConsecutive.toInt else scoreGapStart.toInt + scoreGapExt.toInt * (j - k - 2)

def embeddingScore : List ℕ → ℤ
  | [] => 0
  | [p] => placeScore f haystack p
  | p :: q :: ps => placeScore f haystack p + gapScore p q + embeddingScore (q :: ps)

/-- A layer for each character of the needle, with the places that match it. -/
def needleLayers : Layers where
  worth i j :=
    match needle[i]?, haystack[j]? with
    | some n, some h => if charMatches f n h then some (placeScore f haystack j) else none
    | _, _ => none
  step := gapScore

variable {f needle haystack} {i j k p : ℕ} {s w : ℤ} {ps ks : List ℕ} {n : Char}

theorem worth_eq_some : (needleLayers f needle haystack).worth i j = some w ↔
    ∃ n h, needle[i]? = some n ∧ haystack[j]? = some h ∧ charMatches f n h = true ∧ placeScore f haystack j = w := by
  simp only [needleLayers]
  cases needle[i]? with
  | none => simp
  | some n =>
    cases haystack[j]? with
    | none => simp
    | some h => by_cases hm : charMatches f n h = true <;> simp [hm]

theorem embeddingScore_concat (ps : List ℕ) (k j : ℕ) : embeddingScore f haystack (ps ++ [k] ++ [j]) =
    embeddingScore f haystack (ps ++ [k]) + gapScore k j + placeScore f haystack j := by
  induction ps with
  | nil => rfl
  | cons p ps ih =>
    cases ps with
    | nil =>
      simp only [List.nil_append, List.cons_append, embeddingScore]
      omega
    | cons q ps =>
      simp only [List.cons_append, embeddingScore] at ih ⊢
      omega

/-! ## Embeddings and paths -/

theorem embeds_nil : Embeds f [] haystack [] := ⟨rfl, .nil, fun _ _ _ h => by cases h⟩

theorem embeds_cons : Embeds f (n :: needle) haystack (p :: ps) ↔
    (∃ h, haystack[p]? = some h ∧ charMatches f n h = true) ∧ (∀ q ∈ ps, p < q) ∧ Embeds f needle haystack ps := by
  constructor
  · rintro ⟨hlength, hincreasing, hletters⟩
    obtain ⟨hfirst, hrest⟩ := List.pairwise_cons.1 hincreasing
    exact ⟨hletters 0 n p rfl rfl, hfirst, Nat.succ_injective hlength, hrest, fun i => hletters (i + 1)⟩
  · rintro ⟨hmatch, hfirst, hlength, hincreasing, hletters⟩
    refine ⟨congrArg Nat.succ hlength, List.pairwise_cons.2 ⟨hfirst, hincreasing⟩, fun i n' p' hn hp => ?_⟩
    cases i with
    | zero =>
      cases hn
      cases hp
      exact hmatch
    | succ i => exact hletters i n' p' hn hp

theorem Embeds.concat {h : Char} (he : Embeds f needle haystack ps) (hlast : ∀ p ∈ ps, p < j)
    (hj : haystack[j]? = some h)
    (hm : charMatches f n h = true) : Embeds f (needle ++ [n]) haystack (ps ++ [j]) := by
  obtain ⟨hlength, hincreasing, hletters⟩ := he
  refine ⟨by simp [hlength], ?_, fun i n' p' hn hp => ?_⟩
  · refine List.pairwise_append.2 ⟨hincreasing, List.pairwise_singleton _ _, fun p hp q hq => ?_⟩
    rw [List.mem_singleton.1 hq]
    exact hlast p hp
  · rcases Nat.lt_trichotomy i ps.length with hi | hi | hi
    · rw [List.getElem?_append_left (hlength ▸ hi)] at hn
      rw [List.getElem?_append_left hi] at hp
      exact hletters i n' p' hn hp
    · rw [hi, List.getElem?_concat_length] at hp
      rw [hi, hlength, List.getElem?_concat_length] at hn
      cases hp
      cases hn
      exact ⟨h, hj, hm⟩
    · rw [List.getElem?_eq_none (by rw [List.length_append, List.length_singleton]; omega)] at hp
      cases hp

/-- The first places of an embedding are a path. -/
theorem Embeds.path_take (h : Embeds f needle haystack ps) (hi : i < ps.length) :
    (needleLayers f needle haystack).Path i ps[i] (embeddingScore f haystack (ps.take (i + 1))) (ps.take (i + 1)) := by
  induction i with
  | zero =>
    have hn : 0 < needle.length := h.length ▸ hi
    obtain ⟨c, hc, hm⟩ := h.letters 0 _ _ (List.getElem?_eq_getElem hn) (List.getElem?_eq_getElem hi)
    rw [List.take_succ_eq_append_getElem hi]
    exact .start (worth_eq_some.2 ⟨_, _, List.getElem?_eq_getElem hn, hc, hm, rfl⟩)
  | succ i ih =>
    have hn : i + 1 < needle.length := h.length ▸ hi
    have hlt : ps[i] < ps[i + 1] := List.pairwise_iff_getElem.1 h.increasing i (i + 1) _ hi (by omega)
    obtain ⟨c, hc, hm⟩ := h.letters (i + 1) _ _ (List.getElem?_eq_getElem hn) (List.getElem?_eq_getElem hi)
    have hpath := ih (by omega)
    have htake : ps.take (i + 1) = ps.take i ++ [ps[i]] := List.take_succ_eq_append_getElem _
    rw [List.take_succ_eq_append_getElem hi, htake, embeddingScore_concat]
    rw [htake] at hpath
    exact .next hpath hlt (worth_eq_some.2 ⟨_, _, List.getElem?_eq_getElem hn, hc, hm, rfl⟩)

/-- A path is an embedding of the first characters, with its score. -/
theorem embeds_of_path (h : (needleLayers f needle haystack).Path i j s ks) :
    Embeds f (needle.take (i + 1)) haystack ks ∧ embeddingScore f haystack ks = s ∧ ∃ ks', ks = ks' ++ [j] := by
  induction h with
  | @start j w hw =>
    obtain ⟨c, d, hc, hd, hm, rfl⟩ := worth_eq_some.1 hw
    obtain ⟨hpos, hget⟩ := List.getElem?_eq_some_iff.1 hc
    rw [List.take_succ_eq_append_getElem hpos, hget]
    exact ⟨embeds_cons.2 ⟨⟨d, hd, hm⟩, fun q hq => (by cases hq), embeds_nil⟩, rfl, [], rfl⟩
  | @next i j k s w ks _ hk hw ih =>
    obtain ⟨hembeds, rfl, ks, rfl⟩ := ih
    obtain ⟨c, d, hc, hd, hm, rfl⟩ := worth_eq_some.1 hw
    obtain ⟨hpos, hget⟩ := List.getElem?_eq_some_iff.1 hc
    have hlast : ∀ p ∈ ks ++ [k], p < j := by
      intro p hp
      rcases List.mem_append.1 hp with hp | hp
      · exact ((List.pairwise_append.1 hembeds.increasing).2.2 p hp k (List.mem_singleton_self k)).trans hk
      · rw [List.mem_singleton.1 hp]
        exact hk
    rw [List.take_succ_eq_append_getElem hpos, hget]
    exact ⟨hembeds.concat hlast hd hm, embeddingScore_concat ks k j, _, rfl⟩

/-! ## The pre-check -/

/-- The greedy loop finds a place for every character if there are places at all. -/
theorem isSubsequence_drop (needle : Text) (d : ℕ) :
    isSubsequence f needle (haystack.drop d) = true ↔ ∃ ps, Embeds f needle haystack ps ∧ ∀ p ∈ ps, d ≤ p := by
  induction hleft : haystack.length - d generalizing needle d with
  | zero =>
    rw [List.drop_eq_nil_of_le (by omega)]
    cases needle with
    | nil => exact iff_of_true (by rw [isSubsequence]) ⟨[], embeds_nil, fun p hp => by cases hp⟩
    | cons n needle =>
      refine iff_of_false (by rw [isSubsequence]; exact Bool.false_ne_true) fun ⟨ps, hps, hfrom⟩ => ?_
      cases ps with
      | nil => exact absurd hps.length (by simp)
      | cons p ps =>
        obtain ⟨⟨h, hp, -⟩, -, -⟩ := embeds_cons.1 hps
        obtain ⟨hlt, -⟩ := List.getElem?_eq_some_iff.1 hp
        have hle := hfrom p List.mem_cons_self
        omega
  | succ left ih =>
    have hd : d < haystack.length := by omega
    cases needle with
    | nil => exact iff_of_true (by rw [isSubsequence]) ⟨[], embeds_nil, fun p hp => by cases hp⟩
    | cons n needle =>
      rw [List.drop_eq_getElem_cons hd, isSubsequence]
      by_cases hm : charMatches f n haystack[d] = true
      · rw [if_pos hm, ih needle (d + 1) (by omega)]
        constructor
        · rintro ⟨ps, hps, hfrom⟩
          refine ⟨d :: ps, embeds_cons.2 ⟨⟨_, List.getElem?_eq_getElem hd, hm⟩, hfrom, hps⟩, ?_⟩
          intro p hp
          rcases List.mem_cons.1 hp with rfl | hp
          · exact le_rfl
          · exact (Nat.le_succ d).trans (hfrom p hp)
        · rintro ⟨ps, hps, hfrom⟩
          cases ps with
          | nil => exact absurd hps.length (by simp)
          | cons p ps =>
            obtain ⟨-, hlater, hrest⟩ := embeds_cons.1 hps
            exact ⟨ps, hrest, fun q hq => (hfrom p List.mem_cons_self).trans_lt (hlater q hq)⟩
      · rw [if_neg hm, ih (n :: needle) (d + 1) (by omega)]
        refine exists_congr fun ps => and_congr_right fun hps =>
          ⟨fun hfrom p hp => (Nat.le_succ d).trans (hfrom p hp), ?_⟩
        intro hfrom
        cases ps with
        | nil => exact absurd hps.length (by simp)
        | cons p ps =>
          -- the first place is not `d`, and all the others are behind it
          obtain ⟨⟨h, hp, hmatch⟩, hlater, -⟩ := embeds_cons.1 hps
          have hfirst : d < p := by
            refine lt_of_le_of_ne (hfrom p List.mem_cons_self) fun heq => hm ?_
            rw [← heq, List.getElem?_eq_getElem hd] at hp
            cases hp
            exact hmatch
          intro q hq
          rcases List.mem_cons.1 hq with rfl | hq
          · exact hfirst
          · exact hfirst.trans (hlater q hq)

theorem isSubsequence_iff : isSubsequence f needle haystack = true ↔ ∃ ps, Embeds f needle haystack ps := by
  rw [← List.drop_zero (l := haystack), isSubsequence_drop]
  simp

/-! ## How large a score can be -/

theorem positionBonus_bounds (prev : Option Char) (cur : Char) : 0 ≤ (positionBonus f prev cur).toInt ∧
    (positionBonus f prev cur).toInt ≤ 16 ∧ (prev ≠ none → (positionBonus f prev cur).toInt ≤ 8) := by
  unfold positionBonus
  cases prev with
  | none =>
    dsimp only
    exact ⟨by decide, by decide, fun h => absurd rfl h⟩
  | some p =>
    dsimp only
    split
    · exact ⟨by decide, by decide, fun _ => by decide⟩
    · split
      · exact ⟨by decide, by decide, fun _ => by decide⟩
      · exact ⟨by decide, by decide, fun _ => by decide⟩

theorem bonusAt_bounds (f : CharFunctions) (haystack : Text) (j : ℕ) : 0 ≤ (bonusAt f haystack j).toInt ∧
    (bonusAt f haystack j).toInt ≤ 16 ∧
    (0 < j → (bonusAt f haystack j).toInt ≤ 8) := by
  unfold bonusAt
  cases hj : haystack[j]? with
  | none =>
    dsimp only
    exact ⟨by decide, by decide, fun _ => by decide⟩
  | some h =>
    obtain ⟨hlow, hhigh, hlater⟩ := positionBonus_bounds (f := f) (if j = 0 then none else haystack[j - 1]?) h
    refine ⟨hlow, hhigh, fun hpos => hlater ?_⟩
    obtain ⟨hlt, -⟩ := List.getElem?_eq_some_iff.1 hj
    rw [if_neg (by omega), List.getElem?_eq_getElem (by omega)]
    exact Option.some_ne_none _

theorem placeScore_bounds (f : CharFunctions) (haystack : Text) (j : ℕ) : 16 ≤ placeScore f haystack j ∧
    placeScore f haystack j ≤ 32 ∧
    (0 < j → placeScore f haystack j ≤ 24) := by
  obtain ⟨hlow, hhigh, hlater⟩ := bonusAt_bounds f haystack j
  have hmatch : scoreMatch.toInt = 16 := by decide
  unfold placeScore
  exact ⟨by omega, by omega, fun h => by have := hlater h; omega⟩

theorem gapScore_bounds (h : k < j) : (k : ℤ) - j - 1 ≤ gapScore k j ∧ gapScore k j ≤ 4 := by
  have hrun : bonusConsecutive.toInt = 4 := by decide
  have hstart : scoreGapStart.toInt = -3 := by decide
  have hext : scoreGapExt.toInt = -1 := by decide
  rw [gapScore, hrun, hstart, hext]
  split
  · omega
  · omega

/-- The longer the way, the wider the range of the scores. -/
theorem path_bounds (h : (needleLayers f needle haystack).Path i j s ks) :
    15 * (i + 1 : ℤ) - j ≤ s ∧ s ≤ 28 * (i + 1 : ℤ) + 4 := by
  induction h with
  | @start j w hw =>
    obtain ⟨_, _, _, _, _, rfl⟩ := worth_eq_some.1 hw
    obtain ⟨hlow, hhigh, -⟩ := placeScore_bounds f haystack j
    constructor <;> omega
  | @next i j k s w ks _ hk hw ih =>
    obtain ⟨_, _, _, _, _, rfl⟩ := worth_eq_some.1 hw
    obtain ⟨hlow, -, hhigh⟩ := placeScore_bounds f haystack j
    have hlater := hhigh (by omega)
    obtain ⟨hgapLow, hgapHigh⟩ := gapScore_bounds hk
    have hstep : (needleLayers f needle haystack).step k j = gapScore k j := rfl
    rw [hstep]
    push_cast
    constructor <;> omega

end Falach
