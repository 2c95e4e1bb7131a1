import Mathlib.Data.Finmap
import Mathlib.Data.List.Sort
/-!
# Hash maps and hash sets

A hash map is a `Finmap` and a hash set a `Finset`: equality does not see the
order their tables are laid out in. Walking one does, so a walk goes through an
`Enumeration`, which lists the members of every set in some order of its own.
What is proven for every `Enumeration` holds in whatever order a table is walked.
-/

universe u v w

/-- A hash map from `κ` to `ν`. -/
abbrev HashMap (κ : Type u) (ν : Type v) := Finmap fun _ : κ => ν

namespace Finmap

variable {κ : Type u} {ν : Type v} {μ : Type w}

/-! ## Rewriting values -/

/-- The map with `f` applied to every value. -/
def mapVals (f : ν → μ) (m : HashMap κ ν) : HashMap κ μ where
  entries := m.entries.map fun x => ⟨x.1, f x.2⟩
  nodupKeys := by
    have h : (m.entries.map fun x : Sigma fun _ : κ => ν => (⟨x.1, f x.2⟩ : Sigma fun _ : κ => μ)).keys =
        m.entries.keys := by
      simp [Multiset.keys, Multiset.map_map]
    rw [← Multiset.nodup_keys, h, Multiset.nodup_keys]
    exact m.nodupKeys

/-- The map of the values `p` holds of. -/
def filterVals (p : ν → Bool) (m : HashMap κ ν) : HashMap κ ν where
  entries := m.entries.filter fun x => p x.2
  nodupKeys := by
    rw [← Multiset.nodup_keys]
    exact Multiset.nodup_of_le (Multiset.map_le_map (Multiset.filter_le _ _)) (Multiset.nodup_keys.2 m.nodupKeys)

variable [DecidableEq κ]

/-- The map with `f` applied to the value at `k`, if there is one. -/
def modify (k : κ) (f : ν → ν) (m : HashMap κ ν) : HashMap κ ν :=
  match m.lookup k with
  | some v => m.insert k (f v)
  | none => m

theorem lookup_insert_eq (k k' : κ) (v : ν) (m : HashMap κ ν) :
    (m.insert k v).lookup k' = if k' = k then some v else m.lookup k' := by
  split
  · subst_vars; exact lookup_insert m
  · exact lookup_insert_of_ne m ‹_›

/-- A key that is not among those put in keeps its value. -/
theorem lookup_foldl_insert_of_notMem {k : κ} {l : List (κ × ν)} {m : HashMap κ ν} (h : k ∉ l.map Prod.fst) :
    (l.foldl (fun m p => m.insert p.1 p.2) m).lookup k = m.lookup k := by
  induction l generalizing m with
  | nil => rfl
  | cons p l ih =>
    rw [List.map_cons, List.mem_cons, not_or] at h
    rw [List.foldl_cons, ih h.2, lookup_insert_of_ne m h.1]

/-- Of keys that are put in once each, each has the value it was put in with. -/
theorem lookup_foldl_insert_of_mem {p : κ × ν} {l : List (κ × ν)} {m : HashMap κ ν} (hn : (l.map Prod.fst).Nodup)
    (h : p ∈ l) :
    (l.foldl (fun m p => m.insert p.1 p.2) m).lookup p.1 = some p.2 := by
  induction l generalizing m with
  | nil => cases h
  | cons q l ih =>
    obtain ⟨hnot, hn⟩ := List.nodup_cons.1 hn
    rw [List.foldl_cons]
    rcases List.mem_cons.1 h with rfl | h
    · rw [lookup_foldl_insert_of_notMem hnot, lookup_insert]
    · exact ih hn h

theorem lookup_erase_eq (k k' : κ) (m : HashMap κ ν) :
    (m.erase k).lookup k' = if k' = k then none else m.lookup k' := by
  split
  · subst_vars; exact lookup_erase k' m
  · exact lookup_erase_ne ‹_›

theorem lookup_modify (k k' : κ) (f : ν → ν) (m : HashMap κ ν) :
    (m.modify k f).lookup k' = if k' = k then (m.lookup k).map f else m.lookup k' := by
  unfold modify
  cases h : m.lookup k with
  | some v => simp only [lookup_insert_eq, Option.map_some]
  | none =>
    simp only [Option.map_none]
    split
    · subst_vars; exact h
    · rfl

theorem lookup_mapVals (f : ν → μ) (m : HashMap κ ν) (k : κ) :
    (m.mapVals f).lookup k = (m.lookup k).map f := by
  cases h : m.lookup k with
  | some v =>
    rw [Option.map_some, lookup_eq_some_iff]
    exact Multiset.mem_map.2 ⟨⟨k, v⟩, lookup_eq_some_iff.1 h, rfl⟩
  | none =>
    rw [Option.map_none, lookup_eq_none]
    rw [lookup_eq_none, mem_iff] at h
    rw [mem_iff]
    rintro ⟨v, hv⟩
    obtain ⟨⟨k', v'⟩, hm, he⟩ := Multiset.mem_map.1 (lookup_eq_some_iff.1 hv)
    obtain ⟨rfl, -⟩ := Sigma.mk.inj_iff.1 he
    exact h ⟨v', lookup_eq_some_iff.2 hm⟩

theorem lookup_filterVals (p : ν → Bool) (m : HashMap κ ν) (k : κ) :
    (m.filterVals p).lookup k = (m.lookup k).filter p := by
  ext v
  simp only [Option.filter_eq_some_iff, lookup_eq_some_iff, filterVals, Multiset.mem_filter]

/-! ## Keys -/

theorem mem_keys_iff_lookup {k : κ} {m : HashMap κ ν} : k ∈ m.keys ↔ ∃ v, m.lookup k = some v := by
  rw [mem_keys, mem_iff]

theorem notMem_iff_lookup {k : κ} {m : HashMap κ ν} : k ∉ m ↔ m.lookup k = none := lookup_eq_none.symm

theorem mem_modify {k k' : κ} {f : ν → ν} {m : HashMap κ ν} : k' ∈ m.modify k f ↔ k' ∈ m := by
  rw [mem_iff, mem_iff, lookup_modify]
  split
  · subst_vars; simp
  · rfl

theorem mem_mapVals {k : κ} {f : ν → μ} {m : HashMap κ ν} : k ∈ m.mapVals f ↔ k ∈ m := by
  simp only [mem_iff, lookup_mapVals, Option.map_eq_some_iff]
  constructor
  · rintro ⟨_, v, hv, -⟩; exact ⟨v, hv⟩
  · rintro ⟨v, hv⟩; exact ⟨f v, v, hv, rfl⟩

theorem keys_mapVals (f : ν → μ) (m : HashMap κ ν) : (m.mapVals f).keys = m.keys := by
  ext k; simp only [mem_keys, mem_mapVals]

theorem mapVals_insert (f : ν → μ) (k : κ) (v : ν) (m : HashMap κ ν) :
    (m.insert k v).mapVals f = (m.mapVals f).insert k (f v) := by
  refine ext_lookup fun k' => ?_
  rw [lookup_mapVals, lookup_insert_eq, lookup_insert_eq, lookup_mapVals]
  split <;> rfl

theorem mapVals_erase (f : ν → μ) (k : κ) (m : HashMap κ ν) : (m.erase k).mapVals f = (m.mapVals f).erase k := by
  refine ext_lookup fun k' => ?_
  rw [lookup_mapVals, lookup_erase_eq, lookup_erase_eq, lookup_mapVals]
  split <;> rfl

/-- Many insertions, those under one key all of one value. -/
theorem lookup_foldl_insert {α : Type*} (key : α → κ) (val : α → ν) {l : List α}
    (hone : ∀ x ∈ l, ∀ y ∈ l, key x = key y → val x = val y) (m : HashMap κ ν) :
    (∀ x ∈ l, (l.foldl (fun m x => m.insert (key x) (val x)) m).lookup (key x) = some (val x)) ∧
      ∀ k ∉ l.map key, (l.foldl (fun m x => m.insert (key x) (val x)) m).lookup k = m.lookup k := by
  induction l generalizing m with
  | nil => exact ⟨fun x hx => absurd hx List.not_mem_nil, fun _ _ => rfl⟩
  | cons y l ih =>
    obtain ⟨inside, outside⟩ := ih (fun x hx z hz => hone x (List.mem_cons_of_mem y hx) z (List.mem_cons_of_mem y hz))
      (m.insert (key y) (val y))
    refine ⟨fun x hx => ?_, fun k hk => ?_⟩
    · by_cases hin : key x ∈ l.map key
      · obtain ⟨z, hz, he⟩ := List.mem_map.1 hin
        rw [List.foldl_cons, ← he, inside z hz, hone z (List.mem_cons_of_mem y hz) x hx he]
      · rcases List.mem_cons.1 hx with rfl | hx
        · exact (outside _ hin).trans (lookup_insert _)
        · exact absurd (List.mem_map_of_mem hx) hin
    · rw [List.map_cons, List.mem_cons, not_or] at hk
      exact (outside k hk.2).trans (lookup_insert_of_ne _ hk.1)

theorem mapVals_injective {f : ν → μ} (hf : Function.Injective f) : Function.Injective (@mapVals κ _ _ f) := by
  intro m m' h
  refine ext_lookup fun k => Option.map_injective hf ?_
  rw [← lookup_mapVals, ← lookup_mapVals, h]

end Finmap

/-! ## Walking a hash set -/

/-- An order to walk hash sets in: every set is listed with each member once. -/
structure Enumeration (α : Type u) where
  list : Finset α → List α
  perm : ∀ s, (list s : Multiset α) = s.val

namespace Enumeration

variable {α : Type u} (e : Enumeration α) (s : Finset α)

@[simp] theorem mem_list {a : α} : a ∈ e.list s ↔ a ∈ s := by
  rw [← Multiset.mem_coe, e.perm, Finset.mem_val]

theorem nodup_list : (e.list s).Nodup := by
  rw [← Multiset.coe_nodup, e.perm]; exact s.nodup

theorem length_list : (e.list s).length = s.card := by
  rw [← Multiset.coe_card, e.perm]; rfl

@[simp] theorem list_empty : e.list ∅ = [] := by
  rw [← List.length_eq_zero_iff, e.length_list]; rfl

/-- Smallest first: the order of an ordered map, and one a hash set may have. -/
def sorted [LinearOrder α] : Enumeration α where
  list s := Quot.liftOn s.val (List.insertionSort (· ≤ ·)) fun l l' h =>
    (((List.perm_insertionSort (· ≤ ·) l).trans h).trans (List.perm_insertionSort (· ≤ ·) l').symm).eq_of_pairwise'
      (List.pairwise_insertionSort (· ≤ ·) l) (List.pairwise_insertionSort (· ≤ ·) l')
  perm s := by
    obtain ⟨m, hm⟩ := s
    induction m using Quot.inductionOn with
    | h l => exact Quot.sound (List.perm_insertionSort (· ≤ ·) l)

end Enumeration

/-! ## What a map holds, in order -/

namespace Finmap

variable {κ : Type u} {ν : Type v} [DecidableEq κ] (e : Enumeration κ) (m : HashMap κ ν)

/-- The keys and values of a map, as a walk comes to them. -/
def items : List (κ × ν) := (e.list m.keys).filterMap fun k => (m.lookup k).map fun v => (k, v)

theorem mem_items {k : κ} {v : ν} : (k, v) ∈ items e m ↔ m.lookup k = some v := by
  unfold items
  simp only [List.mem_filterMap, Enumeration.mem_list, Option.map_eq_some_iff, Prod.mk.injEq]
  constructor
  · rintro ⟨_, -, _, hv, rfl, rfl⟩
    exact hv
  · intro h
    exact ⟨k, mem_keys.2 (mem_of_lookup_eq_some h), v, h, rfl, rfl⟩

theorem map_fst_items : (items e m).map Prod.fst = e.list m.keys := by
  unfold items
  rw [List.map_filterMap]
  conv_rhs => rw [← List.filterMap_some (l := e.list m.keys)]
  refine List.filterMap_congr fun k hk => ?_
  obtain ⟨v, hv⟩ := mem_keys_iff_lookup.1 (e.mem_list m.keys |>.1 hk)
  rw [hv]
  rfl

theorem nodup_items : ((items e m).map Prod.fst).Nodup := by
  rw [map_fst_items]
  exact e.nodup_list m.keys

/-- The items that are kept make the map of the values that are kept. -/
theorem foldl_insert_filter_items (keep : ν → Bool) :
    ((items e m).filter fun p => keep p.2).foldl (fun m p => m.insert p.1 p.2) (∅ : HashMap κ ν) =
      m.filterVals keep := by
  have hnodup : (((items e m).filter fun p => keep p.2).map Prod.fst).Nodup :=
    (nodup_items e m).sublist (List.filter_sublist.map Prod.fst)
  refine ext_lookup fun k => ?_
  rw [lookup_filterVals]
  cases hk : (m.lookup k).filter keep with
  | some v =>
    obtain ⟨hv, hkeep⟩ := Option.filter_eq_some_iff.1 hk
    exact lookup_foldl_insert_of_mem hnodup (List.mem_filter.2 ⟨(mem_items e m).2 hv, hkeep⟩)
  | none =>
    rw [lookup_foldl_insert_of_notMem, lookup_empty]
    intro hmem
    obtain ⟨p, hp, rfl⟩ := List.mem_map.1 hmem
    obtain ⟨hp, hkeep⟩ := List.mem_filter.1 hp
    rw [(mem_items e m).1 hp] at hk
    exact Option.filter_eq_none_iff.1 hk p.2 rfl hkeep

/-- A map is what its items make when they are put into an empty one. -/
theorem foldl_insert_items : (items e m).foldl (fun m p => m.insert p.1 p.2) (∅ : HashMap κ ν) = m := by
  have hall := foldl_insert_filter_items e m fun _ => true
  rw [List.filter_true] at hall
  rw [hall]
  refine ext_lookup fun k => ?_
  rw [lookup_filterVals]
  cases m.lookup k <;> rfl

end Finmap
