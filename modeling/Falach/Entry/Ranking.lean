import Falach.Entry.FuzzyTable
import Falach.Entry.Scopes
import Mathlib.Algebra.GroupWithZero.Nat
/-!
# What a search returns

The entries that are looked at come in some order, each is scored on its own, and the results are sorted by a key that
tells any two of them apart. So the order they came in is gone.
-/

namespace Falach

open Keepass Keepass.Database

/-! ## Sorting by a key -/

section

variable {α β : Type} [LinearOrder β] {key : α → β} {l l' : List α}

theorem pairwise_sorted (h : (l.map key).Nodup) :
    (l.insertionSort fun a b => key a ≤ key b).Pairwise fun a b => key a < key b := by
  let r : α → α → Prop := fun a b => key a ≤ key b
  have total : Std.Total r := ⟨fun a b => le_total (key a) (key b)⟩
  have trans : IsTrans α r := ⟨fun a b c hab hbc => le_trans hab hbc⟩
  have hle : (l.insertionSort r).Pairwise r := List.pairwise_insertionSort r l
  have hne : (l.insertionSort r).Pairwise fun a b => key a ≠ key b :=
    List.pairwise_map.1 ((((List.perm_insertionSort r l).map key).nodup_iff).2 h)
  exact (hle.and hne).imp fun hab => lt_of_le_of_ne hab.1 hab.2

/-- Sorting by a key that tells any two apart forgets the order. -/
theorem sorted_eq_of_perm (h : (l.map key).Nodup) (hp : l.Perm l') :
    (l.insertionSort fun a b => key a ≤ key b) = l'.insertionSort fun a b => key a ≤ key b := by
  refine List.Perm.eq_of_pairwise (fun a b _ _ hab hba => absurd hba hab.asymm) (pairwise_sorted h)
    (pairwise_sorted ((hp.map key).nodup_iff.1 h)) ?_
  exact ((List.perm_insertionSort _ l).trans hp).trans (List.perm_insertionSort _ l').symm

end

theorem filterMap_id_map {α β : Type} (score : α → Option β) (found : List α) :
    (found.map score).filterMap id = found.filterMap score := by
  rw [List.filterMap_map]
  rfl

variable {fns : TextFunctions} {ids : Enumeration Uuid} {db : Database} {opts : SearchOptions} {id : Uuid} {e : Entry}

/-! ## Scores -/

/-- `str::split_whitespace`. -/
def queryTerms (query : String) : List Text := (query.toList.splitOnP Text.isWhitespace).filter (· ≠ [])

/-- The term matches the field, for so many points. -/
def TermScores (fns : TextFunctions) (term : Text) (s : ScoredField) (weighted : Int32) : Prop :=
  ∃ m, fuzzyMatch fns.toCharFunctions term s.value.toList = .ok (some m) ∧
    weighted = i32Saturating (m.score.toInt * s.weight)

/-- The points of the best field of a term. -/
def BestScores (fns : TextFunctions) (fields : List ScoredField) (term : Text) (weighted : Int32) : Prop :=
  (∃ s ∈ fields, TermScores fns term s weighted) ∧ ∀ s ∈ fields, ∀ w, TermScores fns term s w → w ≤ weighted

/-- The field matches the query in the two modes that know no terms. -/
def FieldMatches (fns : TextFunctions) (query : String) (mode : SearchMode) (s : ScoredField) : Prop :=
  if mode = .wildcard then (fns.lowercase s.value).toList ∈ wildcardLanguage (fns.lowercase query).toList
  else (fns.lowercase query).toList <:+: (fns.lowercase s.value).toList

/-- In the fuzzy mode every term matches some field, in the other modes some field matches. -/
def Matches (fns : TextFunctions) (opts : SearchOptions) (e : Entry) : Prop :=
  if opts.mode = .fuzzy then ∀ term ∈ queryTerms opts.query, ∃ s ∈ scoredFields e, ∃ w, TermScores fns term s w
  else ∃ s ∈ scoredFields e, FieldMatches fns opts.query opts.mode s

/-- The weights of the fields that match, or the best points of every term, added up. -/
def HasScore (fns : TextFunctions) (opts : SearchOptions) (e : Entry) (score : Nat) : Prop :=
  if opts.mode = .fuzzy then
    ∃ best : List Int32, List.Forall₂ (BestScores fns (scoredFields e)) (queryTerms opts.query) best ∧
      score = (max (best.foldl (fun total w => i32Saturating (total.toInt + w.toInt)) 0).toInt 0).toNat
  else
    ∃ fields : List ScoredField, fields.Sublist (scoredFields e) ∧
      (∀ s ∈ scoredFields e, s ∈ fields ↔ FieldMatches fns opts.query opts.mode s) ∧ score = (fields.map (·.weight)).sum

/-- What an entry is worth to a search. -/
def ResultOf (fns : TextFunctions) (opts : SearchOptions) (id : EntryId) (e : Entry) : Option SearchResult → Prop
  | none => ¬ Matches fns opts e
  | some r => r.uuid = id ∧ Matches fns opts e ∧ HasScore fns opts e r.score

/-! ## Plain modes -/

theorem isMatch_iff (fns : TextFunctions) (query : String) (mode : SearchMode) (s : ScoredField) :
    (Matcher.new fns.lowercase query mode).isMatch fns.lowercase s.value = true ↔ FieldMatches fns query mode s := by
  rw [FieldMatches]
  cases mode with
  | substring => exact decide_eq_true_iff
  | fuzzy => exact decide_eq_true_iff
  | wildcard =>
    rw [if_pos rfl]
    exact wildcardLoop_eq ⟨Nat.zero_le _, Nat.zero_le _, fun _ => .rfl, fun saved h => (by cases h)⟩

theorem foldl_scoreField (fns : TextFunctions) (matcher : Matcher) (fields : List ScoredField)
    (scored : Nat × List MatchedField) :
    fields.foldl (scoreField fns matcher) scored =
      (scored.1 + ((fields.filter fun s => matcher.isMatch fns.lowercase s.value).map (·.weight)).sum,
        scored.2 ++ (fields.filter fun s => matcher.isMatch fns.lowercase s.value).map (·.field)) := by
  induction fields generalizing scored with
  | nil => simp
  | cons s fields ih =>
    rw [List.foldl_cons, ih, scoreField, List.filter_cons]
    split
    · simp [Nat.add_assoc]
    · rfl

theorem weight_pos {s : ScoredField} (h : s ∈ scoredFields e) : 0 < s.weight := by
  simp only [scoredFields, List.mem_cons, List.not_mem_nil, or_false] at h
  rcases h with rfl | rfl | rfl | rfl | rfl
  all_goals exact Nat.succ_pos _

/-- An entry is left out exactly if none of its fields matches. -/
theorem scoreEntry_spec (hmode : opts.mode ≠ .fuzzy) (id : EntryId) (e : Entry) :
    ResultOf fns opts id e (scoreEntry fns id e (Matcher.new fns.lowercase opts.query opts.mode)) := by
  let fields := (scoredFields e).filter fun s =>
    (Matcher.new fns.lowercase opts.query opts.mode).isMatch fns.lowercase s.value
  have hmem : ∀ s, s ∈ fields ↔ s ∈ scoredFields e ∧ FieldMatches fns opts.query opts.mode s := fun s => by
    rw [List.mem_filter, isMatch_iff]
  have hsum : ((scoredFields e).foldl (scoreField fns (Matcher.new fns.lowercase opts.query opts.mode)) (0, [])).1 =
      (fields.map (·.weight)).sum := by
    rw [foldl_scoreField]
    exact Nat.zero_add _
  have hmatches : Matches fns opts e ↔ ∃ s, s ∈ fields := by
    rw [Matches, if_neg hmode]
    exact exists_congr fun s => (hmem s).symm
  rw [scoreEntry]
  by_cases hpos : 0 < (fields.map (·.weight)).sum
  · rw [if_pos (hsum ▸ hpos)]
    obtain ⟨w, hw, -⟩ := List.sum_pos_iff_exists_pos_nat.1 hpos
    obtain ⟨s, hs, -⟩ := List.mem_map.1 hw
    refine ⟨rfl, hmatches.2 ⟨s, hs⟩, ?_⟩
    rw [HasScore, if_neg hmode]
    exact ⟨fields, List.filter_sublist, fun s hs => (hmem s).trans (and_iff_right hs), hsum⟩
  · rw [if_neg (hsum ▸ hpos)]
    intro hmatch
    obtain ⟨s, hs⟩ := hmatches.1 hmatch
    exact hpos (List.sum_pos_iff_exists_pos_nat.2 ⟨s.weight, List.mem_map_of_mem hs, weight_pos ((hmem s).1 hs).1⟩)

/-! ## Terms -/

theorem orPanic_ok {α : Type} {x : Except OutOfBounds α} {a : α} : orPanic x = .ok a ↔ x = .ok a := by
  cases x with
  | ok b => rw [orPanic, Except.ok.injEq, Except.ok.injEq]
  | error _ => exact iff_of_false (fun h => by cases h) (fun h => by cases h)

/-- The best field of those that were tried. -/
def BestSoFar (fns : TextFunctions) (term : Text) (tried : List ScoredField) : Option TermMatch → Prop
  | none => ∀ s ∈ tried, ∀ w, ¬ TermScores fns term s w
  | some b => BestScores fns tried term b.weighted

theorem TermScores.unique {term : Text} {s : ScoredField} {w w' : Int32} (h : TermScores fns term s w)
    (h' : TermScores fns term s w') : w = w' := by
  obtain ⟨m, hm, rfl⟩ := h
  obtain ⟨m', hm', rfl⟩ := h'
  obtain rfl := Option.some.inj (Except.ok.inj (hm.symm.trans hm'))
  rfl

theorem improveTerm_ok (term : Text) {tried : List ScoredField} {best : Option TermMatch}
    (h : BestSoFar fns term tried best)
    (s : ScoredField) : ∃ best', improveTerm fns term best s = .ok best' ∧ BestSoFar fns term (tried ++ [s]) best' := by
  obtain ⟨r, hr⟩ := fuzzyMatch_total fns.toCharFunctions term s.value.toList
  -- a field the term does not match leaves the best match as it is
  cases r with
  | none =>
    have hnone : ∀ w, ¬ TermScores fns term s w := by
      rintro w ⟨m, hm, -⟩
      cases hm.symm.trans hr
    refine ⟨best, Loop.bind_ok.2 ⟨none, orPanic_ok.2 hr, rfl⟩, ?_⟩
    cases best with
    | none =>
      intro s' hs'
      rcases List.mem_append.1 hs' with hs' | hs'
      · exact h s' hs'
      · exact List.mem_singleton.1 hs' ▸ hnone
    | some b =>
      obtain ⟨⟨t, ht, hb⟩, hmax⟩ := h
      refine ⟨⟨t, List.mem_append_left _ ht, hb⟩, fun s' hs' w hw => ?_⟩
      rcases List.mem_append.1 hs' with hs' | hs'
      · exact hmax s' hs' w hw
      · exact absurd (List.mem_singleton.1 hs' ▸ hw) (hnone w)
  | some m =>
    have hs : TermScores fns term s (i32Saturating (m.score.toInt * s.weight)) := ⟨m, hr, rfl⟩
    have here : s ∈ tried ++ [s] := List.mem_append_right _ (List.mem_singleton_self s)
    let new : TermMatch := ⟨i32Saturating (m.score.toInt * s.weight), s.field, m.indices⟩
    have hrun : improveTerm fns term best s =
        if best.all fun b => b.weighted < new.weighted then .ok (some new) else .ok best := by
      rw [improveTerm, orPanic_ok.2 hr]
      rfl
    have ofTried : ∀ {b : Int32}, (∀ s' ∈ tried, ∀ w, TermScores fns term s' w → w ≤ b) → new.weighted ≤ b →
        ∀ s' ∈ tried ++ [s], ∀ w, TermScores fns term s' w → w ≤ b := by
      intro b htried hnew s' hs' w hw
      rcases List.mem_append.1 hs' with hs' | hs'
      · exact htried s' hs' w hw
      · rw [List.mem_singleton.1 hs'] at hw
        exact hw.unique hs ▸ hnew
    cases best with
    | none =>
      refine ⟨some new, hrun, ⟨s, here, hs⟩, ofTried (fun s' hs' w hw => absurd hw (h s' hs' w)) (Int32.le_refl _)⟩
    | some b =>
      obtain ⟨⟨t, ht, hb⟩, hmax⟩ := h
      by_cases hlt : b.weighted < new.weighted
      · refine ⟨some new, hrun.trans (if_pos (decide_eq_true hlt)), ⟨s, here, hs⟩,
          ofTried (fun s' hs' w hw => ?_) (Int32.le_refl _)⟩
        exact Int32.le_trans (hmax s' hs' w hw) (Int32.le_of_lt hlt)
      · refine ⟨some b, hrun.trans (if_neg fun h => hlt (of_decide_eq_true h)), ⟨t, List.mem_append_left _ ht, hb⟩, ?_⟩
        exact ofTried hmax (Int32.not_lt.1 hlt)

theorem foldlM_improveTerm (term : Text) (fields : List ScoredField) {tried : List ScoredField}
    {best : Option TermMatch}
    (h : BestSoFar fns term tried best) :
    ∃ best', fields.foldlM (improveTerm fns term) best = .ok best' ∧ BestSoFar fns term (tried ++ fields) best' := by
  induction fields generalizing tried best with
  | nil => exact ⟨best, rfl, by rwa [List.append_nil]⟩
  | cons s fields ih =>
    obtain ⟨next, hnext, hbest⟩ := improveTerm_ok term h s
    obtain ⟨best', hrun, h'⟩ := ih hbest
    refine ⟨best', Loop.foldlM_cons_ok.2 ⟨next, hnext, hrun⟩, ?_⟩
    rwa [List.append_assoc] at h'

theorem bestField_ok (fns : TextFunctions) (e : Entry) (term : Text) :
    ∃ best, bestField fns e term = .ok best ∧ BestSoFar fns term (scoredFields e) best := by
  have start : BestSoFar fns term [] none := fun _ h => absurd h List.not_mem_nil
  exact foldlM_improveTerm term (scoredFields e) start

/-- A term without a match ends the loop; otherwise the best points are added up. -/
theorem scoreTerms_ok (e : Entry) (terms : List Text) (total : Int32) (found : List (MatchedField × List UInt32)) :
    ∃ r, scoreTerms fns e terms total found = .ok r ∧
      match r with
      | none => ∃ term ∈ terms, ∀ s ∈ scoredFields e, ∀ w, ¬ TermScores fns term s w
      | some (total', _) => ∃ best : List Int32, List.Forall₂ (BestScores fns (scoredFields e)) terms best ∧
          total' = best.foldl (fun total w => i32Saturating (total.toInt + w.toInt)) total := by
  induction terms generalizing total found with
  | nil => exact ⟨_, rfl, [], .nil, rfl⟩
  | cons term terms ih =>
    obtain ⟨best, hbest, hspec⟩ := bestField_ok fns e term
    cases best with
    | none => exact ⟨none, Loop.bind_ok.2 ⟨none, hbest, rfl⟩, term, List.mem_cons_self, hspec⟩
    | some m =>
      obtain ⟨r, hr, hrest⟩ := ih (i32Saturating (total.toInt + m.weighted.toInt)) (addIndices m.field m.indices found)
      refine ⟨r, Loop.bind_ok.2 ⟨some m, hbest, hr⟩, ?_⟩
      cases r with
      | none =>
        obtain ⟨term', hterm', hnone⟩ := hrest
        exact ⟨term', List.mem_cons_of_mem term hterm', hnone⟩
      | some r =>
        obtain ⟨best, hall, htotal⟩ := hrest
        exact ⟨m.weighted :: best, .cons hspec hall, htotal⟩

theorem scoreEntryFuzzy_ok (hmode : opts.mode = .fuzzy) (id : EntryId) (e : Entry) :
    ∃ r, scoreEntryFuzzy fns id e (queryTerms opts.query) = .ok r ∧ ResultOf fns opts id e r := by
  obtain ⟨r, hr, hspec⟩ := @scoreTerms_ok fns e (queryTerms opts.query) 0 []
  cases r with
  | none =>
    refine ⟨none, Loop.bind_ok.2 ⟨none, hr, rfl⟩, fun hmatch => ?_⟩
    rw [Matches, if_pos hmode] at hmatch
    obtain ⟨term, hterm, hnone⟩ := hspec
    obtain ⟨s, hs, w, hw⟩ := hmatch term hterm
    exact hnone s hs w hw
  | some r =>
    obtain ⟨best, hall, htotal⟩ := hspec
    refine ⟨_, Loop.bind_ok.2 ⟨some r, hr, rfl⟩, rfl, ?_, ?_⟩
    · rw [Matches, if_pos hmode]
      intro term hterm
      obtain ⟨w, -, ⟨s, hs, hw⟩, -⟩ := Loop.exists_of_forall₂ hall hterm
      exact ⟨s, hs, w, hw⟩
    · rw [HasScore, if_pos hmode]
      exact ⟨best, hall, htotal ▸ rfl⟩

/-! ## The order of the results -/

/-- Higher scores first; of one score the boosted ones first; then by UUID. -/
def Precedes (boost : List Uuid) (l r : SearchResult) : Prop :=
  r.score < l.score ∨ l.score = r.score ∧
    ((l.uuid ∈ boost ∧ r.uuid ∉ boost) ∨ ((l.uuid ∈ boost ↔ r.uuid ∈ boost) ∧ l.uuid < r.uuid))

theorem precedes_of_key (boost : List Uuid) {l r : SearchResult} (h : sortKey boost l < sortKey boost r) :
    Precedes boost l r := by
  rw [sortKey, sortKey, Prod.Lex.toLex_lt_toLex, OrderDual.toDual_lt_toDual] at h
  refine h.imp id fun ⟨hscore, h⟩ => ⟨OrderDual.toDual.injective hscore, ?_⟩
  rw [Prod.Lex.toLex_lt_toLex, OrderDual.toDual_lt_toDual, Bool.lt_iff] at h
  rcases h with ⟨hr, hl⟩ | ⟨hboost, huuid⟩
  · exact .inl ⟨of_decide_eq_true hl, of_decide_eq_false hr⟩
  · exact .inr ⟨decide_eq_decide.1 (OrderDual.toDual.injective hboost), huuid⟩

theorem nodup_keys (boost : List Uuid) {rs : List SearchResult} (h : (rs.map (·.uuid)).Nodup) :
    (rs.map (sortKey boost)).Nodup := by
  refine List.Nodup.of_map (fun key => (ofLex (ofLex key).2).2) ?_
  rw [List.map_map]
  exact h

/-- The entries that are looked at, in some order. -/
structure Found (fns : TextFunctions) (db : Database) (opts : SearchOptions) (found : List (EntryId × Entry)) :
    Prop where
  once : (found.map Prod.fst).Nodup
  mem : ∀ id e, (id, e) ∈ found ↔ Searched fns db opts id e

theorem Found.perm {found found' : List (EntryId × Entry)} (h : Found fns db opts found)
    (h' : Found fns db opts found') :
    found.Perm found' := by
  refine (List.perm_ext_iff_of_nodup (List.Nodup.of_map _ h.once) (List.Nodup.of_map _ h'.once)).2 fun p => ?_
  rw [h.mem p.1 p.2, h'.mem p.1 p.2]

/-- Each entry that is looked at and matches, once, with its score, in order. -/
structure Ranked (fns : TextFunctions) (db : Database) (opts : SearchOptions) (rs : List SearchResult) : Prop where
  once : (rs.map (·.uuid)).Nodup
  mem : ∀ id, id ∈ rs.map (·.uuid) ↔ ∃ e, Searched fns db opts id e ∧ Matches fns opts e
  score : ∀ r ∈ rs, ∃ e, db.entry r.uuid = some e ∧ HasScore fns opts e r.score
  ordered : rs.Pairwise (Precedes opts.boost)

section

variable {score : EntryId × Entry → Option SearchResult} {found found' : List (EntryId × Entry)}

/-- The end of `search_database`. -/
def ranked (score : EntryId × Entry → Option SearchResult) (boost : List Uuid) (found : List (EntryId × Entry)) :
    List SearchResult :=
  (found.filterMap score).insertionSort fun l r => sortKey boost l ≤ sortKey boost r

theorem nodup_scored (hscore : ∀ p, ResultOf fns opts p.1 p.2 (score p)) (h : (found.map Prod.fst).Nodup) :
    ((found.filterMap score).map (·.uuid)).Nodup := by
  have huuid : ∀ p r, score p = some r → r.uuid = p.1 := fun p r hr => by
    have hp := hscore p
    rw [hr] at hp
    exact hp.1
  rw [List.Nodup, List.pairwise_map, List.pairwise_filterMap]
  refine (List.pairwise_map.1 h).imp fun {p q} hne r hr r' hr' heq => hne ?_
  rw [← huuid p r hr, ← huuid q r' hr', heq]

theorem ranked_eq (hscore : ∀ p, ResultOf fns opts p.1 p.2 (score p)) (h : Found fns db opts found)
    (h' : Found fns db opts found') :
    ranked score opts.boost found = ranked score opts.boost found' :=
  sorted_eq_of_perm (nodup_keys opts.boost (nodup_scored hscore h.once)) ((h.perm h').filterMap score)

theorem ranked_spec (hscore : ∀ p, ResultOf fns opts p.1 p.2 (score p)) (h : Found fns db opts found) :
    Ranked fns db opts (ranked score opts.boost found) := by
  have hnodup := nodup_scored hscore h.once
  have hperm : (ranked score opts.boost found).Perm (found.filterMap score) := List.perm_insertionSort _ _
  have hmem : ∀ r, r ∈ ranked score opts.boost found ↔
      ∃ e, Searched fns db opts r.uuid e ∧ score (r.uuid, e) = some r := fun r => by
    rw [hperm.mem_iff, List.mem_filterMap]
    constructor
    · rintro ⟨⟨id, e⟩, hp, hr⟩
      have hp' := hscore (id, e)
      rw [hr] at hp'
      obtain rfl : r.uuid = id := hp'.1
      exact ⟨e, (h.mem _ e).1 hp, hr⟩
    · rintro ⟨e, hs, hr⟩
      exact ⟨(r.uuid, e), (h.mem _ e).2 hs, hr⟩
  refine ⟨(hperm.map _).nodup_iff.2 hnodup, fun id => ?_, fun r hr => ?_, ?_⟩
  · rw [List.mem_map]
    constructor
    · rintro ⟨r, hr, rfl⟩
      obtain ⟨e, hs, heq⟩ := (hmem r).1 hr
      have hp := hscore (r.uuid, e)
      rw [heq] at hp
      exact ⟨e, hs, hp.2.1⟩
    · rintro ⟨e, hs, hmatch⟩
      have hp := hscore (id, e)
      cases heq : score (id, e) with
      | none =>
        rw [heq] at hp
        exact absurd hmatch hp
      | some r =>
        rw [heq] at hp
        obtain rfl : r.uuid = id := hp.1
        exact ⟨r, (hmem r).2 ⟨e, hs, heq⟩, rfl⟩
  · obtain ⟨e, hs, heq⟩ := (hmem r).1 hr
    have hp := hscore (r.uuid, e)
    rw [heq] at hp
    exact ⟨e, hs.entry, hp.2.2⟩
  · exact (pairwise_sorted (nodup_keys opts.boost hnodup)).imp fun hlt => precedes_of_key opts.boost hlt

/-! ## Browsing -/

theorem boosted_concat (present boost : List Uuid) (uuid : Uuid) : boosted present (boost ++ [uuid]) =
    if uuid ∈ present ∧ uuid ∉ boosted present boost then boosted present boost ++ [uuid]
      else boosted present boost := by
  rw [boosted, List.foldl_append]
  rfl

/-- Each boosted entry once, in the order in which the list names them first. -/
theorem boosted_spec (present boost : List Uuid) :
    (∀ uuid, uuid ∈ boosted present boost ↔ uuid ∈ boost ∧ uuid ∈ present) ∧
    (boosted present boost).Pairwise fun a b => boost.idxOf a < boost.idxOf b := by
  induction boost using List.reverseRecOn with
  | nil => exact ⟨fun uuid => iff_of_false List.not_mem_nil fun h => List.not_mem_nil h.1, .nil⟩
  | append_singleton boost uuid ih =>
    obtain ⟨hmem, hordered⟩ := ih
    have hold : (boosted present boost).Pairwise fun a b => (boost ++ [uuid]).idxOf a < (boost ++ [uuid]).idxOf b := by
      refine hordered.imp_of_mem fun {a b} ha hb hlt => ?_
      rwa [List.idxOf_append_of_mem ((hmem a).1 ha).1, List.idxOf_append_of_mem ((hmem b).1 hb).1]
    rw [boosted_concat]
    split
    · rename_i hnew
      have hnot : uuid ∉ boost := fun h => hnew.2 ((hmem uuid).2 ⟨h, hnew.1⟩)
      constructor
      · intro x
        rw [List.mem_append, List.mem_append, hmem, List.mem_singleton]
        constructor
        · rintro (⟨hb, hp⟩ | rfl)
          · exact ⟨.inl hb, hp⟩
          · exact ⟨.inr rfl, hnew.1⟩
        · rintro ⟨hb | rfl, hp⟩
          · exact .inl ⟨hb, hp⟩
          · exact .inr rfl
      · refine List.pairwise_append.2 ⟨hold, List.pairwise_singleton _ _, fun a ha b hb => ?_⟩
        obtain rfl := List.mem_singleton.1 hb
        rw [List.idxOf_append_of_mem ((hmem a).1 ha).1, List.idxOf_append_of_notMem hnot]
        exact Nat.lt_of_lt_of_le (List.idxOf_lt_length_of_mem ((hmem a).1 ha).1) (Nat.le_add_right _ _)
    · rename_i hnew
      refine ⟨fun x => ?_, hold⟩
      rw [List.mem_append, List.mem_singleton, hmem]
      constructor
      · rintro ⟨hb, hp⟩
        exact ⟨.inl hb, hp⟩
      · rintro ⟨hb | rfl, hp⟩
        · exact ⟨hb, hp⟩
        · exact (hmem x).1 (not_not.1 fun h => hnew ⟨hp, h⟩)

/-- What an entry is listed by: its title in lower case, then its UUID. -/
def titleKey (fns : TextFunctions) (p : Uuid × String) : String ×ₗ Nat := toLex (fns.lowercase p.2, p.1)

/-- All entries that are looked at: the boosted ones in the order of the boost list, then the others by their titles. -/
structure Browsed (fns : TextFunctions) (db : Database) (opts : SearchOptions) (first rest : List Uuid) : Prop where
  first_mem : ∀ id, id ∈ first ↔ id ∈ opts.boost ∧ ∃ e, Searched fns db opts id e
  first_ordered : first.Pairwise fun a b => opts.boost.idxOf a < opts.boost.idxOf b
  rest_mem : ∀ id, id ∈ rest ↔ id ∉ opts.boost ∧ ∃ e, Searched fns db opts id e
  rest_ordered : rest.Pairwise fun a b => ∀ e e', db.entry a = some e → db.entry b = some e' →
    titleKey fns (a, fieldText e titleField) < titleKey fns (b, fieldText e' titleField)

def titlesOf (found : List (EntryId × Entry)) : List (Uuid × String) :=
  found.map fun p => (p.1, fieldText p.2 titleField)

def listedRest (fns : TextFunctions) (boost : List Uuid) (entries : List (Uuid × String)) : List (Uuid × String) :=
  (entries.filter fun p => p.1 ∉ boosted (entries.map Prod.fst) boost).insertionSort fun p q =>
    titleKey fns p ≤ titleKey fns q

/-- The end of `browse_results`. -/
def browsed (fns : TextFunctions) (boost : List Uuid) (found : List (EntryId × Entry)) : List SearchResult :=
  (boosted ((titlesOf found).map Prod.fst) boost).map browseHit ++
    (listedRest fns boost (titlesOf found)).map fun p => browseHit p.1

theorem map_fst_titlesOf (found : List (EntryId × Entry)) : (titlesOf found).map Prod.fst = found.map Prod.fst := by
  rw [titlesOf, List.map_map]
  rfl

theorem Found.exists_mem (h : Found fns db opts found) : id ∈ found.map Prod.fst ↔ ∃ e, Searched fns db opts id e := by
  rw [List.mem_map]
  constructor
  · rintro ⟨⟨_, e⟩, hp, rfl⟩
    exact ⟨e, (h.mem _ e).1 hp⟩
  · rintro ⟨e, he⟩
    exact ⟨(id, e), (h.mem id e).2 he, rfl⟩

theorem nodup_titleKeys (fns : TextFunctions) {entries : List (Uuid × String)} (h : (entries.map Prod.fst).Nodup)
    (p : Uuid × String → Bool) : ((entries.filter p).map (titleKey fns)).Nodup := by
  refine List.Nodup.of_map (fun key => (ofLex key).2) ?_
  rw [List.map_map]
  exact h.sublist (List.filter_sublist.map _)

theorem boosted_congr {present present' : List Uuid} (h : present.Perm present') (boost : List Uuid) :
    boosted present boost = boosted present' boost := by
  simp only [boosted, h.mem_iff]

theorem browsed_eq (h : Found fns db opts found) (h' : Found fns db opts found') (boost : List Uuid) :
    browsed fns boost found = browsed fns boost found' := by
  have hperm : (titlesOf found).Perm (titlesOf found') := (h.perm h').map _
  have hfirst := boosted_congr (hperm.map Prod.fst) boost
  have hrest : listedRest fns boost (titlesOf found) = listedRest fns boost (titlesOf found') := by
    rw [listedRest, listedRest, hfirst]
    refine sorted_eq_of_perm (nodup_titleKeys fns ?_ _) (hperm.filter _)
    rw [map_fst_titlesOf]
    exact h.once
  rw [browsed, browsed, hfirst, hrest]

theorem browsed_spec (h : Found fns db opts found) :
    ∃ first rest, browsed fns opts.boost found = (first ++ rest).map browseHit ∧ Browsed fns db opts first rest := by
  obtain ⟨hmem, hordered⟩ := boosted_spec ((titlesOf found).map Prod.fst) opts.boost
  refine ⟨boosted ((titlesOf found).map Prod.fst) opts.boost,
    (listedRest fns opts.boost (titlesOf found)).map Prod.fst, ?_, ?_⟩
  · rw [browsed, List.map_append, List.map_map]
    rfl
  · have hfirst : ∀ id, id ∈ boosted ((titlesOf found).map Prod.fst) opts.boost ↔
        id ∈ opts.boost ∧ ∃ e, Searched fns db opts id e := fun id => by
      rw [hmem, map_fst_titlesOf, h.exists_mem]
    have hlisted : ∀ p, p ∈ listedRest fns opts.boost (titlesOf found) ↔
        p ∈ titlesOf found ∧ p.1 ∉ boosted ((titlesOf found).map Prod.fst) opts.boost := fun p => by
      rw [listedRest, List.mem_insertionSort, List.mem_filter, decide_eq_true_iff]
    have htitle : ∀ p ∈ listedRest fns opts.boost (titlesOf found), ∀ e, db.entry p.1 = some e →
      p.2 = fieldText e titleField := by
      intro p hp e he
      obtain ⟨q, hq, rfl⟩ := List.mem_map.1 ((hlisted p).1 hp).1
      obtain rfl := Option.some.inj (((h.mem q.1 q.2).1 hq).entry.symm.trans he)
      rfl
    refine ⟨hfirst, hordered, fun id => ?_, ?_⟩
    · have hsplit : id ∈ (listedRest fns opts.boost (titlesOf found)).map Prod.fst ↔
          id ∈ found.map Prod.fst ∧ id ∉ boosted ((titlesOf found).map Prod.fst) opts.boost := by
        rw [List.mem_map, ← map_fst_titlesOf, List.mem_map]
        constructor
        · rintro ⟨p, hp, rfl⟩
          exact ⟨⟨p, ((hlisted p).1 hp).1, rfl⟩, ((hlisted p).1 hp).2⟩
        · rintro ⟨⟨p, hp, rfl⟩, hnot⟩
          exact ⟨p, (hlisted p).2 ⟨hp, hnot⟩, rfl⟩
      rw [hsplit, hfirst, h.exists_mem, and_comm]
      exact and_congr_left fun hs => not_congr (and_iff_left hs)
    · refine List.pairwise_map.2 ((pairwise_sorted (nodup_titleKeys fns ?_ _)).imp_of_mem
        fun {p q} hp hq hlt e e' he he' => ?_)
      · rw [map_fst_titlesOf]
        exact h.once
      · rw [← htitle p hp e he, ← htitle q hq e' he']
        exact hlt

end

/-! ## The search -/

theorem scopedEntries_found (ids : Enumeration Uuid) (hl : Linked db) {isInScope : Entry → Except Fault Bool}
    (hscope : ∀ {id e}, db.entry id = some e → ∃ b, isInScope e = .ok b ∧ (b = true ↔ InScope fns db e opts.scope)) :
    ∃ found, scopedEntries ids db opts.includeRecycled isInScope = .ok found ∧ Found fns db opts found := by
  obtain ⟨found, hrun, hnodup, hmem⟩ := @scopedEntries_ok fns ids db opts hl isInScope hscope
  exact ⟨found, hrun, hnodup, hmem⟩

theorem fuzzyScores_ok (hmode : opts.mode = .fuzzy) : ∃ score : EntryId × Entry → Option SearchResult,
    (∀ p, ResultOf fns opts p.1 p.2 (score p)) ∧ ∀ found : List (EntryId × Entry),
      (found.mapM fun p : EntryId × Entry => scoreEntryFuzzy fns p.1 p.2 (queryTerms opts.query)) =
        .ok (found.map score) := by
  choose score hrun hspec using fun p : EntryId × Entry => @scoreEntryFuzzy_ok fns opts hmode p.1 p.2
  refine ⟨score, hspec, fun found => ?_⟩
  rw [funext hrun]
  exact List.mapM_pure

/-- The query says nothing. -/
def Blank (query : String) : Prop := ∀ c ∈ query.toList, Text.isWhitespace c = true

/-- A query that is not answered at once is answered by scoring each entry on its own. -/
theorem searchDatabase_ranked (db : Database) (hfuzzy : opts.mode = .fuzzy → ¬ Blank opts.query)
    (hplain : opts.mode ≠ .fuzzy → opts.query ≠ "") :
    ∃ score : EntryId × Entry → Option SearchResult, (∀ p, ResultOf fns opts p.1 p.2 (score p)) ∧
      ∀ {ids isInScope found}, prepareScope fns ids db opts.scope = .ok isInScope →
        scopedEntries ids db opts.includeRecycled isInScope = .ok found →
        searchDatabase fns ids db opts = .ok (ranked score opts.boost found) := by
  by_cases hmode : opts.mode = .fuzzy
  · have htrim : Text.trim opts.query.toList ≠ [] := fun h => hfuzzy hmode (Text.trim_eq_nil.1 h)
    have hne : opts.query ≠ "" := fun h => htrim (by rw [h]; rfl)
    obtain ⟨score, hspec, hrun⟩ := @fuzzyScores_ok fns opts hmode
    refine ⟨score, hspec, fun {ids isInScope found} hscope hfound => Loop.bind_ok.2 ⟨isInScope, hscope, ?_⟩⟩
    rw [if_neg fun h => htrim h.2, if_neg hne]
    refine Loop.bind_ok.2 ⟨found, hfound, ?_⟩
    rw [hmode, ranked, ← filterMap_id_map]
    exact Loop.bind_ok.2 ⟨found.map score, hrun found, rfl⟩
  · refine ⟨_, fun p => scoreEntry_spec hmode p.1 p.2, fun {ids isInScope found} hscope hfound => ?_⟩
    refine Loop.bind_ok.2 ⟨isInScope, hscope, ?_⟩
    rw [if_neg fun h => hmode h.1, if_neg (hplain hmode)]
    refine Loop.bind_ok.2 ⟨found, hfound, ?_⟩
    rw [ranked, ← filterMap_id_map]
    cases hm : opts.mode with
    | fuzzy => exact absurd hm hmode
    | substring => rfl
    | wildcard => rfl

/-- A search returns the entries that pass the scope and the recycle-bin cut and match, each once and in order, whatever
order the maps are walked in. A blank fuzzy query lists them all. -/
theorem search_returns_matches (hl : Linked db) (fns : TextFunctions) (opts : SearchOptions) :
    ∃ rs, (∀ ids, searchDatabase fns ids db opts = .ok rs) ∧
      (opts.mode = .fuzzy → Blank opts.query →
        ∃ first rest, rs = (first ++ rest).map browseHit ∧ Browsed fns db opts first rest) ∧
      (opts.mode ≠ .fuzzy → opts.query = "" → rs = []) ∧
      ((opts.mode = .fuzzy → ¬ Blank opts.query) → (opts.mode ≠ .fuzzy → opts.query ≠ "") → Ranked fns db opts rs) := by
  have walk : ∀ ids, ∃ isInScope found, prepareScope fns ids db opts.scope = .ok isInScope ∧
      scopedEntries ids db opts.includeRecycled isInScope = .ok found ∧ Found fns db opts found := fun ids => by
    obtain ⟨isInScope, hrun, hscope⟩ := @prepareScope_ok fns ids db hl opts.scope
    obtain ⟨found, hfound, h⟩ := @scopedEntries_found fns db opts ids hl isInScope hscope
    exact ⟨isInScope, found, hrun, hfound, h⟩
  obtain ⟨-, found, -, -, hfound⟩ := walk Enumeration.sorted
  by_cases hmode : opts.mode = .fuzzy
  · by_cases hblank : Blank opts.query
    · refine ⟨browsed fns opts.boost found, fun ids => ?_, fun _ _ => browsed_spec hfound, fun h => absurd hmode h,
        fun h => absurd hblank (h hmode)⟩
      obtain ⟨isInScope, found', hscope, hrun, hfound'⟩ := walk ids
      rw [browsed_eq hfound hfound']
      refine Loop.bind_ok.2 ⟨isInScope, hscope, ?_⟩
      rw [if_pos ⟨hmode, Text.trim_eq_nil.2 hblank⟩]
      exact Loop.bind_ok.2 ⟨found', hrun, rfl⟩
    · obtain ⟨score, hspec, hsearch⟩ :=
        @searchDatabase_ranked fns opts db (fun _ => hblank) fun h => absurd hmode h
      refine ⟨ranked score opts.boost found, fun ids => ?_, fun _ h => absurd h hblank, fun h => absurd hmode h,
        fun _ _ => ranked_spec hspec hfound⟩
      obtain ⟨isInScope, found', hscope, hrun, hfound'⟩ := walk ids
      rw [ranked_eq hspec hfound hfound']
      exact hsearch hscope hrun
  · by_cases hempty : opts.query = ""
    · refine ⟨[], fun ids => ?_, fun h => absurd h hmode, fun _ _ => rfl, fun _ h => absurd hempty (h hmode)⟩
      obtain ⟨isInScope, found', hscope, hrun, hfound'⟩ := walk ids
      refine Loop.bind_ok.2 ⟨isInScope, hscope, ?_⟩
      rw [if_neg fun h => hmode h.1, if_pos hempty]
      rfl
    · obtain ⟨score, hspec, hsearch⟩ :=
        @searchDatabase_ranked fns opts db (fun h => absurd h hmode) fun _ => hempty
      refine ⟨ranked score opts.boost found, fun ids => ?_, fun h => absurd h hmode, fun _ h => absurd h hempty,
        fun _ _ => ranked_spec hspec hfound⟩
      obtain ⟨isInScope, found', hscope, hrun, hfound'⟩ := walk ids
      rw [ranked_eq hspec hfound hfound']
      exact hsearch hscope hrun

def asciiText : TextFunctions where
  toCharFunctions := asciiFunctions
  lowercase s := String.ofList (s.toList.map Char.toLower)

def called (id parent : Uuid) (title : String) : Entry :=
  { id := id, parent := parent, fields := Finmap.singleton titleField (.unprotected title) }

/-- Group 9 is the recycle bin. -/
def mailVault : Database where
  config := ⟨.aes 0⟩
  «meta» := { recyclebinUuid := some 9 }
  root := 0
  entries := Finmap.insert 1 (called 1 0 "mail")
    (Finmap.insert 2 (called 2 0 "my mail") (Finmap.insert 3 (called 3 0 "e-mail")
    (Finmap.singleton 4 (called 4 9 "mail"))))
  groups := Finmap.insert 9 { id := 9, parent := some 0, entries := {4} }
    (Finmap.singleton 0 { id := 0, parent := none, groups := {9}, entries := {1, 2, 3} })

def mailSearch : SearchOptions := ⟨"ma il", .fuzzy, false, .all, [3]⟩

/-- The last two have one score, and the boosted one comes first. -/
theorem mail_is_ranked : (searchDatabase asciiText .sorted mailVault mailSearch).map (List.map (·.uuid)) =
    .ok [1, 3, 2] ∧
    ∃ rs, (∀ ids, searchDatabase asciiText ids mailVault mailSearch = .ok rs) ∧
      Ranked asciiText mailVault mailSearch rs := by
  have run : (searchDatabase asciiText .sorted mailVault mailSearch).map (List.map (·.uuid)) = .ok [1, 3, 2] := by
    decide +kernel
  obtain ⟨rs, hrun, -, -, hranked⟩ :=
    search_returns_matches (CheckedLinks.linked (by decide +kernel) : Linked mailVault)
    asciiText mailSearch
  refine ⟨run, rs, hrun, hranked (fun _ hblank => ?_) fun h => absurd rfl h⟩
  exact absurd (hblank 'm' (by decide)) (by decide)

end Falach
