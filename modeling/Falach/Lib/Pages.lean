import Mathlib.Data.List.Nodup
import Mathlib.Data.List.Rotate
/-!
# Pages

A list in pages of one size. Where each page is cut out of the list in an order of its own, an element may be on two
pages or on none; all of them are on one page each, whatever the orders, exactly if they fit on the first page.
-/

universe u

namespace Pages

variable {α : Type u} {k i j : Nat} {l : List α} {lists : Nat → List α} {a : α}

/-- The page with number `i`. -/
def page (k i : Nat) (l : List α) : List α := (l.drop (i * k)).take k

/-- The element is in one place on one of the pages. -/
def Once (pages : Nat → List α) (a : α) : Prop := ∃! place : Nat × Nat, (pages place.1)[place.2]? = some a

theorem getElem?_page : (page k i l)[j]? = if j < k then l[i * k + j]? else none := by
  rw [page, List.getElem?_take, List.getElem?_drop]

/-- An element is in one place on the pages of a list. -/
theorem once_of_same (hk : 0 < k) (hn : l.Nodup) (ha : a ∈ l) : Once (fun i => page k i l) a := by
  obtain ⟨n, hn', rfl⟩ := List.getElem_of_mem ha
  refine ⟨(n / k, n % k), ?_, ?_⟩
  · have hplace : n / k * k + n % k = n := Nat.div_add_mod' n k
    simp only [getElem?_page, if_pos (Nat.mod_lt n hk), hplace, List.getElem?_eq_getElem hn']
  · rintro ⟨i, j⟩ hplace
    simp only [getElem?_page] at hplace
    split at hplace
    · rename_i hj
      obtain ⟨hlt, heq⟩ := List.getElem?_eq_some_iff.1 hplace
      have hsame : i * k + j = n := (List.Nodup.getElem_inj_iff hn).1 heq
      have hdiv : n / k = i := by
        rw [← hsame, Nat.mul_comm, Nat.mul_add_div hk, Nat.div_eq_of_lt hj, Nat.add_zero]
      have hmod : n % k = j := by
        rw [← hsame, Nat.mul_comm, Nat.mul_add_mod, Nat.mod_eq_of_lt hj]
      rw [hdiv, hmod]
    · cases hplace

/-- Where all elements fit on the first page, there is nothing on the others. -/
theorem once_of_length_le (hlength : ∀ i, (lists i).length ≤ k) (hn : (lists 0).Nodup) (ha : a ∈ lists 0) :
    Once (fun i => page k i (lists i)) a := by
  obtain ⟨n, hn', rfl⟩ := List.getElem_of_mem ha
  refine ⟨(0, n), ?_, ?_⟩
  · simp only [getElem?_page, if_pos (hn'.trans_le (hlength 0)), Nat.zero_mul, Nat.zero_add,
      List.getElem?_eq_getElem hn']
  · rintro ⟨i, j⟩ hplace
    simp only [getElem?_page] at hplace
    split at hplace
    · obtain ⟨hlt, heq⟩ := List.getElem?_eq_some_iff.1 hplace
      cases i with
      | zero =>
        have hsame : 0 * k + j = n := (List.Nodup.getElem_inj_iff hn).1 heq
        rw [← hsame, Nat.zero_mul, Nat.zero_add]
      | succ i =>
        have hpast : k ≤ (i + 1) * k := Nat.le_mul_of_pos_left k i.succ_pos
        have hlength := hlength (i + 1)
        omega
    · cases hplace

/-- The first element of a list is the first of the second page of another order too. -/
theorem not_once_rotate (hk : 0 < k) (hlong : k < l.length) (h0 : lists 0 = l)
    (h1 : lists 1 = l.rotate (l.length - k)) : ∃ a ∈ l, ¬ Once (fun i => page k i (lists i)) a := by
  have hpos : 0 < l.length := hk.trans hlong
  refine ⟨l[0], List.getElem_mem hpos, ?_⟩
  rintro ⟨place, -, hunique⟩
  have first : (page k 0 (lists 0))[0]? = some l[0] := by
    rw [getElem?_page, if_pos hk, h0, Nat.zero_mul, List.getElem?_eq_getElem hpos]
  have second : (page k 1 (lists 1))[0]? = some l[0] := by
    have hback : k + (l.length - k) = l.length := Nat.add_sub_of_le hlong.le
    rw [getElem?_page, if_pos hk, h1, Nat.one_mul, Nat.add_zero, List.getElem?_rotate hlong, hback, Nat.mod_self,
      List.getElem?_eq_getElem hpos]
  cases (hunique (0, 0) first).trans (hunique (1, 0) second).symm

/-- In whatever orders the pages are cut out, they have all elements in one place each: this holds if and only if all
elements fit on one page. -/
theorem forall_once_iff (hk : 0 < k) (hn : l.Nodup) :
    (∀ lists : Nat → List α, (∀ i, (lists i).Perm l) → ∀ a ∈ l, Once (fun i => page k i (lists i)) a) ↔
      l.length ≤ k := by
  constructor
  · intro hall
    by_contra hlong
    obtain ⟨a, ha, hnot⟩ :
        ∃ a ∈ l, ¬ Once (fun i => page k i (if i = 1 then l.rotate (l.length - k) else l)) a :=
      not_once_rotate hk (Nat.lt_of_not_le hlong) (if_neg Nat.zero_ne_one) (if_pos rfl)
    refine hnot (hall _ (fun i => ?_) a ha)
    split
    · exact List.rotate_perm l _
    · exact .refl l
  · intro hshort lists hperm a ha
    exact once_of_length_le (fun i => (hperm i).length_eq.trans_le hshort) ((hperm 0).nodup_iff.2 hn)
      ((hperm 0).mem_iff.2 ha)

end Pages
