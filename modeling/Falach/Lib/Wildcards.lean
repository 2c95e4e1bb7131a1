import Mathlib.Computability.Language
/-!
# Wildcard patterns

The language of a pattern over any alphabet, and how it is read from the left: what the first token of a pattern asks of
a word, and what a part without `any` leaves of it.
-/

universe u

/-- A token of a pattern: any word, any one letter, or one letter. -/
inductive Wildcard (α : Type u) where
  | any
  | one
  | letter (a : α)
deriving DecidableEq

namespace Wildcard

variable {α : Type u} {p q : List (Wildcard α)} {t : Wildcard α} {w : List α} {a b : α}

/-- The words a token stands for. -/
def words : Wildcard α → Language α
  | any => (Set.univ : Set (List α))
  | one => {w : List α | w.length = 1}
  | letter a => ({[a]} : Set (List α))

/-- The words that are put together from words of the tokens, one after the other. -/
def language (p : List (Wildcard α)) : Language α := (p.map words).prod

theorem mem_language_nil : w ∈ language ([] : List (Wildcard α)) ↔ w = [] := Language.mem_one w

theorem mem_language_cons : w ∈ language (t :: p) ↔ ∃ u ∈ t.words, ∃ v ∈ language p, u ++ v = w := by
  rw [language, List.map_cons, List.prod_cons]
  exact Language.mem_mul

theorem mem_language_any : w ∈ language (any :: p) ↔ ∃ n, w.drop n ∈ language p := by
  rw [mem_language_cons]
  constructor
  · rintro ⟨u, -, v, hv, rfl⟩
    exact ⟨u.length, by rwa [List.drop_left]⟩
  · rintro ⟨n, hn⟩
    exact ⟨w.take n, trivial, w.drop n, hn, List.take_append_drop n w⟩

theorem mem_language_one : a :: w ∈ language (one :: p) ↔ w ∈ language p := by
  rw [mem_language_cons]
  constructor
  · rintro ⟨u, hu, v, hv, h⟩
    obtain ⟨b, rfl⟩ := List.length_eq_one_iff.1 hu
    obtain ⟨-, rfl⟩ := List.cons.inj h
    exact hv
  · exact fun h => ⟨[a], rfl, w, h, rfl⟩

theorem mem_language_letter : a :: w ∈ language (letter b :: p) ↔ a = b ∧ w ∈ language p := by
  rw [mem_language_cons]
  constructor
  · rintro ⟨u, rfl, v, hv, h⟩
    obtain ⟨rfl, rfl⟩ := List.cons.inj h
    exact ⟨rfl, hv⟩
  · rintro ⟨rfl, h⟩
    exact ⟨[a], rfl, w, h, rfl⟩

/-- A token other than `any` takes one letter. -/
theorem length_of_mem_words (ht : t ≠ any) (h : w ∈ t.words) : w.length = 1 := by
  cases t with
  | any => exact absurd rfl ht
  | one => exact h
  | letter a => rw [Set.mem_singleton_iff.1 h]; rfl

theorem nil_notMem_language_cons (ht : t ≠ any) : [] ∉ language (t :: p) := by
  rw [mem_language_cons]
  rintro ⟨u, hu, v, -, h⟩
  have hlength := length_of_mem_words ht hu
  obtain ⟨rfl, -⟩ := List.append_eq_nil_iff.1 h
  cases hlength

/-- The empty word is in the language of the patterns that are nothing but `any`. -/
theorem nil_mem_language : [] ∈ language p ↔ ∀ t ∈ p, t = any := by
  induction p with
  | nil => simp [mem_language_nil]
  | cons t p ih =>
    rw [List.forall_mem_cons, ← ih]
    constructor
    · intro h
      by_cases ht : t = any
      · refine ⟨ht, ?_⟩
        obtain ⟨n, hn⟩ := mem_language_any.1 (ht ▸ h)
        rwa [List.drop_nil] at hn
      · exact absurd h (nil_notMem_language_cons ht)
    · rintro ⟨rfl, h⟩
      exact mem_language_any.2 ⟨0, h⟩

/-- Tokens other than `any` in front take one letter each, so the rest of the pattern starts at one place. -/
theorem drop_mem_language (hq : ∀ t ∈ q, t ≠ any) (h : w ∈ language (q ++ p)) : w.drop q.length ∈ language p := by
  induction q generalizing w with
  | nil => exact h
  | cons t q ih =>
    obtain ⟨ht, hq⟩ := List.forall_mem_cons.1 hq
    obtain ⟨u, hu, v, hv, rfl⟩ := mem_language_cons.1 h
    have hlength := length_of_mem_words ht hu
    rw [List.length_cons, Nat.add_comm, ← List.drop_drop, ← hlength, List.drop_left]
    exact ih hq hv

end Wildcard
