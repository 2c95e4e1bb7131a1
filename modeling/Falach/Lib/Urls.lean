import Mathlib.Algebra.GroupWithZero.Nat
import Falach.Lib.Text
/-!
# The parts of a URL

A URL taken apart as RFC 3986 does: scheme, authority, path, query and fragment, and the dot segments of a path removed.
-/

structure Uri where
  scheme : Option Text
  authority : Option Text
  path : Text
  query : Option Text
  fragment : Option Text
deriving DecidableEq

namespace Uri

/-- The text up to the first of some delimiters, and the rest from the delimiter on. -/
def upTo (delimiters : List Char) (s : Text) : Text × Text :=
  (s.takeWhile fun c => decide (c ∉ delimiters), s.dropWhile fun c => decide (c ∉ delimiters))

/-- The text behind `mark`, if the text begins with it. -/
def behind (mark : Text) (s : Text) : Option Text := if mark.isPrefixOf s then some (s.drop mark.length) else none

/-- The parts of a URL. -/
def parse (url : Text) : Uri :=
  let (start, afterStart) := upTo [':', '/', '?', '#'] url
  let (scheme, rest) := match behind [':'] afterStart with
    | some rest => if start = [] then (none, url) else (some start, rest)
    | none => (none, url)
  let (authority, rest) := match behind ['/', '/'] rest with
    | some rest => (some (upTo ['/', '?', '#'] rest).1, (upTo ['/', '?', '#'] rest).2)
    | none => (none, rest)
  let (path, rest) := upTo ['?', '#'] rest
  let (query, rest) := match behind ['?'] rest with
    | some rest => (some (upTo ['#'] rest).1, (upTo ['#'] rest).2)
    | none => (none, rest)
  { scheme := scheme, authority := authority, path := path, query := query, fragment := behind ['#'] rest }

/-- A segment that stands for a place in the hierarchy. -/
def IsDot (segment : Text) : Prop := segment = ['.'] ∨ segment = ['.', '.']

instance (segment : Text) : Decidable (IsDot segment) := inferInstanceAs (Decidable (_ ∨ _))

/-- The segments that are left of the segments `input`; `output` are the ones before, the last one first. A dot
segment at the end leaves an empty segment. -/
def removeDots (output : List Text) : List Text → List Text
  | [] => output.reverse
  | s :: input =>
    let output' := if s = ['.'] then output else if s = ['.', '.'] then output.tail else s :: output
    if IsDot s ∧ input = [] then ([] :: output').reverse else removeDots output' input

/-- The segments of an absolute path. -/
def segments (path : Text) : List Text := (path.drop 1).splitOn '/'

/-- The path of the segments, each behind a slash. -/
def joined (segments : List Text) : Text := segments.flatMap fun s => '/' :: s

/-- `remove_dot_segments` of an absolute path. -/
def removeDotSegments (path : Text) : Text := if path = [] then [] else joined (removeDots [] (segments path))

variable {s t url scheme authority path : Text} {c : Char} {delimiters : List Char} {output input : List Text}

/-! ## Taking apart -/

theorem upTo_append (hs : ∀ c ∈ s, c ∉ delimiters) (ht : ∀ c ∈ t.head?, c ∈ delimiters) :
    upTo delimiters (s ++ t) = (s, t) := by
  have htake : t.takeWhile (fun c => decide (c ∉ delimiters)) = [] := by
    cases t with
    | nil => rfl
    | cons c t => exact List.takeWhile_cons_of_neg (by simpa using ht c rfl)
  have hdrop : t.dropWhile (fun c => decide (c ∉ delimiters)) = t := by
    cases t with
    | nil => rfl
    | cons c t => exact List.dropWhile_cons_of_neg (by simpa using ht c rfl)
  have hall : ∀ c ∈ s, decide (c ∉ delimiters) = true := fun c hc => decide_eq_true (hs c hc)
  rw [upTo, List.takeWhile_append_of_pos hall, List.dropWhile_append_of_pos hall, htake, hdrop, List.append_nil]

theorem upTo_fst_append (delimiters : List Char) (s : Text) : (upTo delimiters s).1 ++ (upTo delimiters s).2 = s :=
  List.takeWhile_append_dropWhile

theorem notMem_upTo (delimiters : List Char) (s : Text) : ∀ c ∈ (upTo delimiters s).1, c ∉ delimiters := fun c hc => by
  simpa using List.mem_takeWhile_imp hc

theorem head_upTo (delimiters : List Char) (s : Text) : ∀ c ∈ (upTo delimiters s).2.head?, c ∈ delimiters :=
  fun c hc => by
  have h := List.head?_dropWhile_not (fun c => decide (c ∉ delimiters)) s
  rw [Option.mem_def] at hc
  change (s.dropWhile fun c => decide (c ∉ delimiters)).head? = some c at hc
  rw [hc] at h
  simpa using h

/-- A URL with a scheme and an authority, taken apart. -/
theorem parse_authority (hne : scheme ≠ []) (hscheme : ∀ c ∈ scheme, c ∉ [':', '/', '?', '#']) (rest : Text) :
    parse (scheme ++ "://".toList ++ rest) =
      let authority := upTo ['/', '?', '#'] rest
      let path := upTo ['?', '#'] authority.2
      let query := behind ['?'] path.2
      { scheme := some scheme
        authority := some authority.1
        path := path.1
        query := query.map fun q => (upTo ['#'] q).1
        fragment := behind ['#'] ((query.map fun q => (upTo ['#'] q).2).getD path.2) } := by
  have hstart : upTo [':', '/', '?', '#'] (scheme ++ "://".toList ++ rest) = (scheme, "://".toList ++ rest) := by
    rw [List.append_assoc]
    exact upTo_append hscheme fun c hc => by cases hc; decide
  have hcolon : behind [':'] ("://".toList ++ rest) = some ("//".toList ++ rest) := rfl
  have hslashes : behind ['/', '/'] ("//".toList ++ rest) = some rest := rfl
  simp only [parse, hstart, hcolon, if_neg hne, hslashes]
  cases behind ['?'] (upTo ['?', '#'] (upTo ['/', '?', '#'] rest).2).2 with
  | none => rfl
  | some q => rfl

/-! ## Dot segments -/

theorem joined_segments (h : path.head? = some '/') : joined (segments path) = path := by
  cases path with
  | nil => cases h
  | cons c path =>
    obtain rfl := Option.some.inj h
    have hpath : ['/'].intercalate (path.splitOn '/') = path := List.intercalate_splitOn '/'
    have hne := List.splitOn_ne_nil '/' path
    change joined (path.splitOn '/') = _
    conv_rhs => rw [← hpath]
    generalize path.splitOn '/' = l at hne
    induction l with
    | nil => exact absurd rfl hne
    | cons s l ih =>
      cases l with
      | nil => simp [joined]
      | cons s' l =>
        have htail := ih (List.cons_ne_nil s' l)
        rw [List.intercalate_cons_cons, joined, List.flatMap_cons]
        change '/' :: s ++ joined (s' :: l) = _
        rw [htail]
        simp

theorem removeDots_eq (h : ∀ s ∈ input, ¬ IsDot s) : removeDots output input = output.reverse ++ input := by
  induction input generalizing output with
  | nil => simp [removeDots]
  | cons s input ih =>
    obtain ⟨hs, hinput⟩ := List.forall_mem_cons.1 h
    have hone : s ≠ ['.'] := fun h => hs (.inl h)
    have htwo : s ≠ ['.', '.'] := fun h => hs (.inr h)
    simp only [removeDots, if_neg hone, if_neg htwo]
    rw [if_neg fun h => hs h.1, ih hinput]
    simp

theorem removeDots_ne_nil (output : List Text) (h : input ≠ []) : removeDots output input ≠ [] := by
  induction input generalizing output with
  | nil => exact absurd rfl h
  | cons s input ih =>
    unfold removeDots
    dsimp only
    split
    · simp
    · rename_i hmore
      cases input with
      | nil =>
        -- the last segment is no dot segment, so it stays
        have hs : ¬ IsDot s := fun hs => hmore ⟨hs, rfl⟩
        have hone : s ≠ ['.'] := fun h => hs (.inl h)
        have htwo : s ≠ ['.', '.'] := fun h => hs (.inr h)
        simp [removeDots, hone, htwo]
      | cons s' input => exact ih _ (List.cons_ne_nil s' input)

/-- Where every segment costs something, and a dot segment more than an empty one, a path with a dot segment gets
cheaper. -/
theorem removeDots_cost (f : Text → Nat) (output input : List Text) (hf : ∀ s, IsDot s → f [] < f s) :
    ((removeDots output input).map f).sum ≤ (output.map f).sum + (input.map f).sum ∧
      ((∃ s ∈ input, IsDot s) →
        ((removeDots output input).map f).sum < (output.map f).sum + (input.map f).sum) := by
  induction input generalizing output with
  | nil =>
    refine ⟨?_, fun ⟨s, hs, _⟩ => (by cases hs)⟩
    simp [removeDots, List.map_reverse, List.sum_reverse]
  | cons s input ih =>
    -- what is popped off the output costs nothing any more
    have pop : (output.tail.map f).sum ≤ (output.map f).sum := by
      cases output with
      | nil => exact le_rfl
      | cons t output => simp
    rw [List.map_cons, List.sum_cons]
    unfold removeDots
    dsimp only
    by_cases hs : IsDot s
    · have hless := hf s hs
      set output' := if s = ['.'] then output else if s = ['.', '.'] then output.tail else s :: output with houtput
      have houtput' : (output'.map f).sum ≤ (output.map f).sum := by
        rw [houtput]
        rcases hs with rfl | rfl
        · exact le_rfl
        · exact pop
      have smaller : ((if IsDot s ∧ input = [] then ([] :: output').reverse else removeDots output' input).map f).sum <
          (output.map f).sum + (f s + (input.map f).sum) := by
        split
        · simp only [List.map_reverse, List.sum_reverse, List.map_cons, List.sum_cons]
          omega
        · have := (ih output').1
          omega
      exact ⟨smaller.le, fun _ => smaller⟩
    · have hone : s ≠ ['.'] := fun h => hs (.inl h)
      have htwo : s ≠ ['.', '.'] := fun h => hs (.inr h)
      rw [if_neg hone, if_neg htwo, if_neg fun h => hs h.1]
      have hrest := ih (s :: output)
      rw [List.map_cons, List.sum_cons] at hrest
      refine ⟨by omega, fun ⟨t, ht, hdot⟩ => ?_⟩
      rcases List.mem_cons.1 ht with rfl | ht
      · exact absurd hdot hs
      · have := hrest.2 ⟨t, ht, hdot⟩
        omega

end Uri
