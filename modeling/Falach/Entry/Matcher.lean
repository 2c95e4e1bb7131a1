import Falach.Lib.Text
import Falach.Lib.Wildcards
/-!
# Matching a field

The matcher of the two plain search modes. Wildcards are matched by two positions that run side by side and fall back to
the last star alone: a star takes as little as it can, so no earlier star has to be tried again.
-/

namespace Falach

/-- The search modes. -/
inductive SearchMode where
  | substring
  | wildcard
  | fuzzy
deriving DecidableEq

/-- What a character of a pattern stands for. -/
def wildcardOf (c : Char) : Wildcard Char :=
  if c = '*' then .any else if c = '?' then .one else .letter c

/-- The values that the pattern matches. -/
def wildcardLanguage (pattern : Text) : Language Char := Wildcard.language (pattern.map wildcardOf)

/-! ## The matcher -/

/-- The positions of `wildcard_match`; `starV` is where the value of the last star ends, so far. -/
structure WildcardCursor where
  p : Nat
  v : Nat
  starP : Option Nat
  starV : Nat
  behind : starV ≤ v

/-- The loop of `wildcard_match` over the stars at the end of the pattern. -/
def skipStars (pattern : Text) (p : Nat) : Nat :=
  if h : ∃ hp : p < pattern.length, pattern[p] = '*' then skipStars pattern (p + 1) else p
termination_by pattern.length - p
decreasing_by obtain ⟨hp, -⟩ := h; omega

/-- The loop of `wildcard_match`. Every read of the pattern and the value comes with the proof that it is in bounds. In
each round the last star takes one more character, or it takes no less and a position moves on. -/
def wildcardLoop (pattern value : Text) (c : WildcardCursor) : Bool :=
  if hv : c.v < value.length then
    if hstar : ∃ hp : c.p < pattern.length, pattern[c.p] = '*' then
      wildcardLoop pattern value { p := c.p + 1, v := c.v, starP := some c.p, starV := c.v, behind := le_rfl }
    else if hone : ∃ hp : c.p < pattern.length, pattern[c.p] = '?' ∨ pattern[c.p] = value[c.v] then
      wildcardLoop pattern value { c with p := c.p + 1, v := c.v + 1, behind := c.behind.trans (Nat.le_succ c.v) }
    else
      match c.starP with
      | some saved =>
        wildcardLoop pattern value
          { p := saved + 1, v := c.starV + 1, starP := some saved, starV := c.starV + 1, behind := le_rfl }
      | none => false
  else
    skipStars pattern c.p = pattern.length
termination_by (value.length - c.starV, (pattern.length - c.p) + (value.length - c.v))
decreasing_by
  · obtain ⟨hp, -⟩ := hstar
    have := c.behind
    rcases Nat.lt_or_eq_of_le c.behind with h | h
    · exact Prod.Lex.left _ _ (by omega)
    · rw [h]
      exact Prod.Lex.right _ (by omega)
  · obtain ⟨hp, -⟩ := hone
    exact Prod.Lex.right _ (by omega)
  · have := c.behind
    exact Prod.Lex.left _ _ (by omega)

def wildcardMatch (pattern value : Text) : Bool :=
  wildcardLoop pattern value { p := 0, v := 0, starP := none, starV := 0, behind := le_rfl }

/-- `Matcher`. -/
inductive Matcher where
  | substring (needle : Text)
  | wildcard (pattern : Text)

namespace Matcher

/-- `Matcher::new`; `toLowercase` is the one of strings. -/
def new (toLowercase : String → String) (query : String) : SearchMode → Matcher
  | .substring | .fuzzy => .substring (toLowercase query).toList
  | .wildcard => .wildcard (toLowercase query).toList

def isMatch (toLowercase : String → String) (value : String) : Matcher → Bool
  | .substring needle => needle <:+: (toLowercase value).toList
  | .wildcard pattern => wildcardMatch pattern (toLowercase value).toList

end Matcher

/-! ## It decides the language of the pattern -/

variable {pattern value : Text} {c : WildcardCursor} {p v k : Nat}

/-- The value from `v` on is matched by the pattern from `p` on. -/
def MatchesFrom (pattern value : Text) (p v : Nat) : Prop := value.drop v ∈ wildcardLanguage (pattern.drop p)

/-- What the loop knows. Between the last star and `p` there is no star, and the value from the end of what that star
takes is matched up to `v`. -/
structure WildcardCursor.Sound (pattern value : Text) (c : WildcardCursor) : Prop where
  p_le : c.p ≤ pattern.length
  v_le : c.v ≤ value.length
  first : c.starP = none → (value ∈ wildcardLanguage pattern ↔ MatchesFrom pattern value c.p c.v)
  later : ∀ saved, c.starP = some saved →
    (value ∈ wildcardLanguage pattern ↔ ∃ k ≥ c.starV, MatchesFrom pattern value (saved + 1) k) ∧
    (MatchesFrom pattern value (saved + 1) c.starV ↔ MatchesFrom pattern value c.p c.v) ∧
    saved + 1 ≤ c.p ∧ c.p + c.starV = saved + 1 + c.v ∧ ∀ x ∈ (pattern.take c.p).drop (saved + 1), x ≠ '*'

theorem wildcardOf_eq_any {c : Char} : wildcardOf c = .any ↔ c = '*' := by
  unfold wildcardOf
  split
  · simp [*]
  · split <;> simp [*]

theorem matchesFrom_star (hp : p < pattern.length) (hc : pattern[p] = '*') :
    MatchesFrom pattern value p v ↔ ∃ k ≥ v, MatchesFrom pattern value (p + 1) k := by
  have hany : wildcardOf pattern[p] = .any := wildcardOf_eq_any.2 hc
  rw [MatchesFrom, List.drop_eq_getElem_cons hp, wildcardLanguage, List.map_cons, hany, Wildcard.mem_language_any]
  constructor
  · rintro ⟨n, hn⟩
    rw [List.drop_drop] at hn
    exact ⟨v + n, Nat.le_add_right v n, hn⟩
  · rintro ⟨k, hk, h⟩
    refine ⟨k - v, ?_⟩
    rw [List.drop_drop, Nat.add_sub_cancel' hk]
    exact h

theorem matchesFrom_other (hp : p < pattern.length) (hv : v < value.length) (hc : pattern[p] ≠ '*') :
    MatchesFrom pattern value p v ↔
      (pattern[p] = '?' ∨ pattern[p] = value[v]) ∧ MatchesFrom pattern value (p + 1) (v + 1) := by
  rw [MatchesFrom, List.drop_eq_getElem_cons hp, List.drop_eq_getElem_cons hv, wildcardLanguage, List.map_cons]
  by_cases hone : pattern[p] = '?'
  · have htoken : wildcardOf pattern[p] = .one := by rw [wildcardOf, if_neg hc, if_pos hone]
    rw [htoken, Wildcard.mem_language_one]
    exact ⟨fun h => ⟨.inl hone, h⟩, And.right⟩
  · have htoken : wildcardOf pattern[p] = .letter pattern[p] := by rw [wildcardOf, if_neg hc, if_neg hone]
    rw [htoken, Wildcard.mem_language_letter]
    simp only [hone, false_or, eq_comm]
    rfl

/-- Past the end of the pattern only the empty value is matched. -/
theorem matchesFrom_end (hp : pattern.length ≤ p) : MatchesFrom pattern value p v ↔ value.length ≤ v := by
  rw [MatchesFrom, List.drop_eq_nil_of_le hp]
  exact Wildcard.mem_language_nil.trans List.drop_eq_nil_iff

/-- Without a star in between, the pattern from `p` on is met where the pattern from `q` on leads to. -/
theorem matchesFrom_skip {q : Nat} (hq : q ≤ p) (hp : p ≤ pattern.length)
    (hstars : ∀ x ∈ (pattern.take p).drop q, x ≠ '*')
    (h : MatchesFrom pattern value q k) : MatchesFrom pattern value p (k + (p - q)) := by
  have hsplit : pattern.drop q = (pattern.take p).drop q ++ pattern.drop p := by
    conv_lhs => rw [← List.take_append_drop p pattern]
    exact List.drop_append_of_le_length (by rw [List.length_take]; omega)
  have hlength : (((pattern.take p).drop q).map wildcardOf).length = p - q := by
    simp only [List.length_map, List.length_drop, List.length_take]
    omega
  rw [MatchesFrom, wildcardLanguage, hsplit, List.map_append] at h
  have hrest := Wildcard.drop_mem_language (fun t ht => ?_) h
  · rw [hlength, List.drop_drop] at hrest
    exact hrest
  · obtain ⟨x, hx, rfl⟩ := List.mem_map.1 ht
    exact fun hany => hstars x hx (wildcardOf_eq_any.1 hany)

theorem skipStars_eq (hp : p ≤ pattern.length) :
    skipStars pattern p = pattern.length ↔ ∀ x ∈ pattern.drop p, x = '*' := by
  fun_induction skipStars pattern p with
  | case1 p h ih =>
    obtain ⟨hp, hc⟩ := h
    rw [ih hp, List.drop_eq_getElem_cons hp, List.forall_mem_cons]
    exact ⟨fun h => ⟨hc, h⟩, And.right⟩
  | case2 p h =>
    constructor
    · rintro rfl
      rw [List.drop_length]
      intro x hx
      cases hx
    · intro hall
      by_contra hne
      have hlt : p < pattern.length := Nat.lt_of_le_of_ne hp hne
      rw [List.drop_eq_getElem_cons hlt] at hall
      exact h ⟨hlt, hall _ List.mem_cons_self⟩

/-- At the end of the value the stars at the end of the pattern decide. -/
theorem matchesFrom_stars (hp : p ≤ pattern.length) (hv : value.length ≤ v) :
    MatchesFrom pattern value p v ↔ skipStars pattern p = pattern.length := by
  rw [MatchesFrom, List.drop_eq_nil_of_le hv, wildcardLanguage, Wildcard.nil_mem_language, skipStars_eq hp]
  simp only [List.forall_mem_map, wildcardOf_eq_any]

/-- The loop answers for the whole value and the whole pattern. -/
theorem wildcardLoop_eq (h : c.Sound pattern value) : wildcardLoop pattern value c = true ↔
    value ∈ wildcardLanguage pattern := by
  fun_induction wildcardLoop pattern value c with
  | case1 c hv hstar ih =>
    -- a star: whatever an earlier star has taken, what it left over leads here
    obtain ⟨hp, hc⟩ := hstar
    have here : MatchesFrom pattern value c.p c.v ↔ _ := matchesFrom_star hp hc
    refine ih ⟨hp, h.v_le, fun h => (by cases h), fun saved hsaved => ?_⟩
    obtain rfl := Option.some.inj hsaved
    refine ⟨?_, .rfl, le_rfl, rfl, fun x hx => ?_⟩
    · cases hlast : c.starP with
      | none => exact (h.first hlast).trans here
      | some saved =>
        obtain ⟨whole, current, hle, hshift, hnone⟩ := h.later saved hlast
        constructor
        · intro hvalue
          obtain ⟨k, hk, hmatch⟩ := whole.1 hvalue
          have hskip := matchesFrom_skip hle h.p_le hnone hmatch
          obtain ⟨k', hk', hrest⟩ := (matchesFrom_star hp hc).1 hskip
          exact ⟨k', (by dsimp only; omega), hrest⟩
        · intro hrest
          exact whole.2 ⟨c.starV, le_rfl, current.2 (here.2 hrest)⟩
    · simp only [List.drop_take, Nat.sub_self, List.take_zero] at hx
      cases hx
  | case2 c hv hstar hone ih =>
    obtain ⟨hp, hc⟩ := hone
    have hother : pattern[c.p] ≠ '*' := fun hc => hstar ⟨hp, hc⟩
    have here := (matchesFrom_other hp hv hother).trans (and_iff_right hc)
    refine ih ⟨hp, hv, fun hnone => (h.first hnone).trans here, fun saved hsaved => ?_⟩
    obtain ⟨whole, current, hle, hshift, hnone⟩ := h.later saved hsaved
    refine ⟨whole, current.trans here, hle.trans (Nat.le_succ _), (by dsimp only; omega), fun x hx => ?_⟩
    rw [List.take_add_one, List.getElem?_eq_getElem hp,
      List.drop_append_of_le_length (by rw [List.length_take]; omega)] at hx
    rcases List.mem_append.1 hx with hx | hx
    · exact hnone x hx
    · rw [Option.toList_some, List.mem_singleton] at hx
      exact hx ▸ hother
  | case3 c hv hstar hone saved hsaved ih =>
    -- no way on: the last star takes one character more
    have stuck : ¬ MatchesFrom pattern value c.p c.v := by
      intro hmatch
      rcases Nat.lt_or_eq_of_le h.p_le with hp | hp
      · exact hone ⟨hp, ((matchesFrom_other hp hv fun hc => hstar ⟨hp, hc⟩).1 hmatch).1⟩
      · exact absurd ((matchesFrom_end hp.ge).1 hmatch) (by omega)
    obtain ⟨whole, current, hle, hshift, hnone⟩ := h.later saved hsaved
    have hbehind := c.behind
    refine ih ⟨hle.trans h.p_le, (by dsimp only; omega), fun h => (by cases h), fun saved' hsaved' => ?_⟩
    obtain rfl := Option.some.inj hsaved'
    refine ⟨whole.trans ⟨?_, ?_⟩, .rfl, le_rfl, rfl, fun x hx => ?_⟩
    · rintro ⟨k, hk, hmatch⟩
      rcases Nat.lt_or_eq_of_le hk with hlt | rfl
      · exact ⟨k, hlt, hmatch⟩
      · exact absurd (current.1 hmatch) stuck
    · rintro ⟨k, hk, hmatch⟩
      exact ⟨k, (Nat.le_succ _).trans hk, hmatch⟩
    · simp only [List.drop_take, Nat.sub_self, List.take_zero] at hx
      cases hx
  | case4 c hv hstar hone hnone =>
    refine iff_of_false Bool.false_ne_true fun hvalue => ?_
    have hmatch := (h.first hnone).1 hvalue
    rcases Nat.lt_or_eq_of_le h.p_le with hp | hp
    · exact hone ⟨hp, ((matchesFrom_other hp hv fun hc => hstar ⟨hp, hc⟩).1 hmatch).1⟩
    · exact absurd ((matchesFrom_end hp.ge).1 hmatch) (by omega)
  | case5 c hv =>
    have hend : value.length ≤ c.v := Nat.le_of_not_lt hv
    rw [decide_eq_true_iff, ← matchesFrom_stars h.p_le hend]
    cases hlast : c.starP with
    | none => exact (h.first hlast).symm
    | some saved =>
      obtain ⟨whole, current, hle, hshift, hnone⟩ := h.later saved hlast
      refine (whole.trans ⟨?_, fun hmatch => ⟨c.starV, le_rfl, current.2 hmatch⟩⟩).symm
      rintro ⟨k, hk, hmatch⟩
      have hskip := matchesFrom_skip hle h.p_le hnone hmatch
      rw [matchesFrom_stars h.p_le (by omega)] at hskip
      exact (matchesFrom_stars h.p_le hend).2 hskip

/-- A pattern matches exactly the values of its language, and the wildcard mode matches the field and the query in lower
case. -/
theorem wildcard_match_exact (pattern value : Text) (toLowercase : String → String) (query field : String) :
    (wildcardMatch pattern value = true ↔ value ∈ wildcardLanguage pattern) ∧
      ((Matcher.new toLowercase query .wildcard).isMatch toLowercase field = true ↔
        (toLowercase field).toList ∈ wildcardLanguage (toLowercase query).toList) := by
  have exact_match : ∀ pattern value : Text, wildcardMatch pattern value = true ↔ value ∈ wildcardLanguage pattern := by
    intro pattern value
    exact wildcardLoop_eq ⟨Nat.zero_le _, Nat.zero_le _, fun _ => .rfl, fun saved h => (by cases h)⟩
  exact ⟨exact_match pattern value, exact_match _ _⟩

end Falach
