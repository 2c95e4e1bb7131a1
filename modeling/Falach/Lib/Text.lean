import Mathlib.Data.List.DropRight
/-!
# Text

Text as the list of its characters, and the operations of a string library on it.
-/

abbrev Text := List Char

namespace Text

/-- The ASCII letters in lower case. -/
def lower (s : Text) : Text := s.map Char.toLower

def trimStart (c : Char) (s : Text) : Text := s.dropWhile fun x => x = c

def trimEnd (c : Char) (s : Text) : Text := s.rdropWhile fun x => x = c

/-- What comes before and after the first `sep`. -/
def splitOnce (sep : Text) : Text → Option (Text × Text)
  | [] => if sep = [] then some ([], []) else none
  | c :: s => if sep.isPrefixOf (c :: s) then some ([], (c :: s).drop sep.length)
    else (splitOnce sep s).map fun parts => (c :: parts.1, parts.2)

/-- What comes before and after the last `c`. -/
def rsplitOnce (c : Char) (s : Text) : Option (Text × Text) :=
  (splitOnce [c] s.reverse).map fun parts => (parts.2.reverse, parts.1.reverse)

/-- White space, as Unicode has it. -/
def isWhitespace (c : Char) : Bool :=
  c.toNat ∈ [0x20, 0x85, 0xA0, 0x1680, 0x2028, 0x2029, 0x202F, 0x205F, 0x3000] ∨
    (0x9 ≤ c.toNat ∧ c.toNat ≤ 0xD) ∨ (0x2000 ≤ c.toNat ∧ c.toNat ≤ 0x200A)

/-- The text without the white space around it. -/
def trim (s : Text) : Text := (s.dropWhile isWhitespace).rdropWhile isWhitespace

variable {s t sep before after : Text} {c : Char}

theorem forall_of_all {P : Char → Prop} [DecidablePred P] (h : (s.all fun x => P x) = true) : ∀ x ∈ s, P x :=
  fun x hx => of_decide_eq_true (List.all_eq_true.1 h x hx)

@[simp] theorem lower_append : lower (s ++ t) = lower s ++ lower t := List.map_append

theorem splitOnce_eq (h : splitOnce sep s = some (before, after)) : s = before ++ sep ++ after := by
  induction s generalizing before with
  | nil =>
    simp only [splitOnce] at h
    split at h
    · rename_i hsep; cases h; simp [hsep]
    · cases h
  | cons c s ih =>
    simp only [splitOnce] at h
    split at h
    · rename_i hprefix
      obtain ⟨rest, hrest⟩ := List.isPrefixOf_iff_prefix.1 hprefix
      cases h
      rw [← hrest, List.drop_left, List.nil_append]
    · obtain ⟨⟨before', after'⟩, hsplit, heq⟩ := Option.map_eq_some_iff.1 h
      cases heq
      simp [ih hsplit]

theorem splitOnce_append (h : c ∉ s) (rest : Text) :
    splitOnce (c :: sep) (s ++ c :: (sep ++ rest)) = some (s, rest) := by
  induction s with
  | nil => simp [splitOnce]
  | cons x s ih =>
    have hx : c ≠ x := fun hx => h (hx ▸ List.mem_cons_self)
    have hs : c ∉ s := fun hs => h (List.mem_cons_of_mem x hs)
    simp [splitOnce, hx, ih hs]

/-- The parts of a text that is put together at the first of the separating characters. -/
theorem splitOnce_append_cons (h : c ∉ s) : splitOnce [c] (s ++ c :: t) = some (s, t) := splitOnce_append h t

theorem splitOnce_notMem (h : splitOnce [c] s = some (before, after)) : c ∉ before := by
  induction s generalizing before with
  | nil => cases h
  | cons x s ih =>
    simp only [splitOnce] at h
    split at h
    · cases h
      exact List.not_mem_nil
    · rename_i hx
      obtain ⟨⟨before', after'⟩, hsplit, heq⟩ := Option.map_eq_some_iff.1 h
      cases heq
      intro hc
      rcases List.mem_cons.1 hc with rfl | hc
      · exact hx (List.isPrefixOf_iff_prefix.2 ⟨s, rfl⟩)
      · exact ih hsplit hc

theorem splitOnce_eq_none (h : splitOnce [c] s = none) : c ∉ s := by
  intro hc
  obtain ⟨before, after, rfl, hbefore⟩ := List.eq_append_cons_of_mem hc
  rw [splitOnce_append_cons hbefore] at h
  cases h

/-- The last of the separating characters is where the text is split. -/
theorem rsplitOnce_append_cons (h : c ∉ t) : rsplitOnce c (s ++ c :: t) = some (s, t) := by
  have hrev : c ∉ t.reverse := fun hc => h (List.mem_reverse.1 hc)
  have hsplit := @splitOnce_append_cons t.reverse s.reverse c hrev
  rw [rsplitOnce, List.reverse_append, List.reverse_cons, List.append_assoc, List.singleton_append, hsplit]
  simp

theorem rsplitOnce_eq (h : rsplitOnce c s = some (before, after)) : s = before ++ c :: after ∧ c ∉ after := by
  obtain ⟨⟨last, start⟩, hsplit, heq⟩ := Option.map_eq_some_iff.1 h
  cases heq
  have hs := congrArg List.reverse (splitOnce_eq hsplit)
  refine ⟨by simpa using hs, fun hc => splitOnce_notMem hsplit (List.mem_reverse.1 hc)⟩

theorem rsplitOnce_of_notMem (h : c ∉ s) : rsplitOnce c s = none := by
  cases hsplit : rsplitOnce c s with
  | none => rfl
  | some parts =>
    have hs := (rsplitOnce_eq hsplit).1
    exact absurd (hs ▸ List.mem_append_right parts.1 List.mem_cons_self) h

theorem rsplitOnce_eq_none (h : rsplitOnce c s = none) : c ∉ s := by
  have hrev := splitOnce_eq_none (Option.map_eq_none_iff.1 h)
  exact fun hc => hrev (List.mem_reverse.2 hc)

/-- What is trimmed at the end is one character again and again. -/
theorem eq_trimEnd_append (c : Char) (s : Text) : ∃ n, s = trimEnd c s ++ List.replicate n c := by
  induction s using List.reverseRecOn with
  | nil => exact ⟨0, rfl⟩
  | append_singleton s x ih =>
    by_cases hx : x = c
    · subst hx
      obtain ⟨n, hn⟩ := ih
      refine ⟨n + 1, ?_⟩
      rw [trimEnd, List.rdropWhile_concat_pos _ _ _ (by simp), List.replicate_succ', ← List.append_assoc]
      exact congrArg (· ++ [x]) hn
    · refine ⟨0, ?_⟩
      rw [trimEnd, List.rdropWhile_concat_neg _ _ _ (by simpa using hx)]
      simp

theorem trimEnd_append_replicate (h : c ∉ s) (n : Nat) : trimEnd c (s ++ List.replicate n c) = s := by
  induction n with
  | zero =>
    rw [List.replicate_zero, List.append_nil, trimEnd, List.rdropWhile_eq_self_iff]
    intro hne hlast
    exact h (of_decide_eq_true hlast ▸ List.getLast_mem hne)
  | succ n ih =>
    rw [List.replicate_succ', ← List.append_assoc, trimEnd, List.rdropWhile_concat_pos _ _ _ (by simp)]
    exact ih

theorem trim_eq_nil : trim s = [] ↔ ∀ x ∈ s, isWhitespace x = true := by
  rw [trim, List.rdropWhile_eq_nil_iff]
  constructor
  · intro h x hx
    cases hrest : s.dropWhile isWhitespace with
    | nil => exact List.dropWhile_eq_nil_iff.1 hrest x hx
    | cons y rest =>
      have hy : isWhitespace y = false := by
        simpa [hrest] using List.head_dropWhile_not isWhitespace (l := s) (by rw [hrest]; exact List.cons_ne_nil y rest)
      rw [h y (hrest ▸ List.mem_cons_self)] at hy
      cases hy
  · intro h x hx
    exact h x ((List.dropWhile_suffix _).subset hx)

/-- What starts and ends with no white space is not trimmed. -/
theorem trim_eq (hc : isWhitespace c = false) : trim (c :: (s ++ [c])) = c :: (s ++ [c]) := by
  have hstart : (c :: (s ++ [c])).dropWhile isWhitespace = c :: (s ++ [c]) := List.dropWhile_cons_of_neg (by simp [hc])
  rw [trim, hstart, ← List.cons_append, List.rdropWhile_concat_neg _ _ _ (by simp [hc])]

/-- Two parts, the first without the character between them. -/
theorem parts_eq_iff {a b x y : Text} (ha : c ∉ a) (hb : c ∉ b) : a ++ c :: x = b ++ c :: y ↔ a = b ∧ x = y := by
  induction a generalizing b with
  | nil =>
    cases b with
    | nil => simp
    | cons z b =>
      have hz : c ≠ z := fun h => hb (h ▸ List.mem_cons_self)
      simp [hz]
  | cons z a ih =>
    cases b with
    | nil =>
      have hz : z ≠ c := fun h => ha (h ▸ List.mem_cons_self)
      simp [hz]
    | cons w b =>
      have htail := ih (fun h => ha (List.mem_cons_of_mem z h)) (fun h => hb (List.mem_cons_of_mem w h))
      simp only [List.cons_append, List.cons.injEq, htail, and_assoc]

/-- Lower case makes letters only. -/
theorem toLower_cases (x : Char) : x.toLower = x ∨ ('A' ≤ x ∧ x ≤ 'Z' ∧ 'a' ≤ x.toLower ∧ x.toLower ≤ 'z') := by
  by_cases h : x.val ≥ 'A'.val ∧ x.val ≤ 'Z'.val
  · have hlow : x.toLower = _ := dif_pos h
    refine .inr ⟨h.1, h.2, ?_, ?_⟩
    · rw [hlow]
      change 'a'.val ≤ x.val + ('a'.val - 'A'.val)
      obtain ⟨h1, h2⟩ := h
      simp only [ge_iff_le, UInt32.le_iff_toNat_le, UInt32.toNat_add] at h1 h2 ⊢
      grind
    · rw [hlow]
      change x.val + ('a'.val - 'A'.val) ≤ 'z'.val
      obtain ⟨h1, h2⟩ := h
      simp only [ge_iff_le, UInt32.le_iff_toNat_le, UInt32.toNat_add] at h1 h2 ⊢
      grind
  · exact .inl (dif_neg h)

/-- A character that is no letter is made from itself alone. -/
theorem toLower_eq_iff (hlow : c.toLower = c) (hletter : ¬ ('a' ≤ c ∧ c ≤ 'z')) {x : Char} : x.toLower = c ↔ x = c := by
  constructor
  · rintro rfl
    rcases toLower_cases x with hx | ⟨-, -, hx⟩
    · exact hx.symm
    · exact absurd hx hletter
  · rintro rfl
    exact hlow

theorem toLower_eq_slash {x : Char} : x.toLower = '/' ↔ x = '/' := toLower_eq_iff (by decide) (by decide)

theorem mem_lower_iff (hlow : c.toLower = c) (hletter : ¬ ('a' ≤ c ∧ c ≤ 'z')) : c ∈ lower s ↔ c ∈ s := by
  constructor
  · intro h
    obtain ⟨x, hx, hxc⟩ := List.mem_map.1 h
    exact (toLower_eq_iff hlow hletter).1 hxc ▸ hx
  · exact fun h => List.mem_map.2 ⟨c, h, hlow⟩

theorem lower_trimEnd_slash : lower (trimEnd '/' s) = trimEnd '/' (lower s) := by
  induction s using List.reverseRecOn with
  | nil => rfl
  | append_singleton s x ih =>
    have hconcat : lower (s ++ [x]) = lower s ++ [x.toLower] := lower_append
    by_cases hx : x = '/'
    · subst hx
      rw [hconcat, trimEnd, List.rdropWhile_concat_pos _ _ _
        (by simp), trimEnd, List.rdropWhile_concat_pos _ _ _ (by decide)]
      exact ih
    · have hlow : x.toLower ≠ '/' := fun h => hx (toLower_eq_slash.1 h)
      rw [hconcat, trimEnd, List.rdropWhile_concat_neg _ _ _ (by simpa using hx), trimEnd,
        List.rdropWhile_concat_neg _ _ _ (by simpa using hlow)]
      exact hconcat

/-! ## Splitting -/

/-- The pieces of a text are without the characters it is split at, and made of its other characters. -/
theorem mem_splitOnP (f : Char → Bool) (s : Text) : ∀ p ∈ s.splitOnP f, (∀ x ∈ p, f x = false) ∧ p ⊆ s := by
  induction s with
  | nil =>
    intro p hp
    rw [List.splitOnP_nil, List.mem_singleton] at hp
    subst hp
    exact ⟨fun x hx => absurd hx List.not_mem_nil, List.Subset.refl _⟩
  | cons x s ih =>
    intro p hp
    rw [List.splitOnP_cons_eq_if_modifyHead] at hp
    split at hp
    · rcases List.mem_cons.1 hp with rfl | hp
      · exact ⟨fun x hx => absurd hx List.not_mem_nil, List.nil_subset _⟩
      · exact ⟨(ih p hp).1, List.subset_cons_of_subset x (ih p hp).2⟩
    · rename_i hx
      cases hs : s.splitOnP f with
      | nil => exact absurd hs (List.splitOnP_ne_nil f s)
      | cons q parts =>
        rw [hs, List.modifyHead_cons] at hp
        rcases List.mem_cons.1 hp with rfl | hp
        · obtain ⟨hf, hsub⟩ := ih q (hs ▸ List.mem_cons_self)
          refine ⟨fun y hy => ?_, List.cons_subset_cons x hsub⟩
          rcases List.mem_cons.1 hy with rfl | hy
          · simpa using hx
          · exact hf y hy
        · obtain ⟨hf, hsub⟩ := ih p (hs ▸ List.mem_cons_of_mem q hp)
          exact ⟨hf, List.subset_cons_of_subset x hsub⟩

theorem mem_splitOn (s : Text) : ∀ p ∈ s.splitOn c, c ∉ p ∧ p ⊆ s := by
  intro p hp
  obtain ⟨hf, hsub⟩ := mem_splitOnP (· == c) s p hp
  refine ⟨fun hc => ?_, hsub⟩
  have hc := hf c hc
  rw [beq_self_eq_true] at hc
  cases hc

/-- Only what the predicate says of the characters of the text matters. -/
theorem splitOnP_congr {f g : Char → Bool} {s : Text} (h : ∀ x ∈ s, f x = g x) : s.splitOnP f = s.splitOnP g := by
  induction s with
  | nil => rw [List.splitOnP_nil, List.splitOnP_nil]
  | cons x s ih =>
    rw [List.splitOnP_cons_eq_if_modifyHead, List.splitOnP_cons_eq_if_modifyHead, h x List.mem_cons_self,
      ih fun y hy => h y (List.mem_cons_of_mem x hy)]

theorem mem_intercalate {x : Char} {parts : List Text} (h : x ∈ sep.intercalate parts) :
    x ∈ sep ∨ ∃ p ∈ parts, x ∈ p := by
  induction parts with
  | nil => cases h
  | cons p parts ih =>
    cases parts with
    | nil => exact .inr ⟨p, List.mem_singleton_self p, by simpa using h⟩
    | cons q parts =>
      rw [List.intercalate_cons_cons, List.mem_append, List.mem_append] at h
      rcases h with (h | h) | h
      · exact .inr ⟨p, List.mem_cons_self, h⟩
      · exact .inl h
      · exact (ih h).imp_right fun ⟨r, hr, hx⟩ => ⟨r, List.mem_cons_of_mem p hr, hx⟩

/-- Splitting takes apart what was joined, if there was something to join and the separator was in none of it. -/
theorem splitOn_intercalate_iff {parts : List Text} :
    ([c].intercalate parts).splitOn c = parts ↔ parts ≠ [] ∧ ∀ p ∈ parts, c ∉ p := by
  constructor
  · intro h
    refine ⟨fun hnil => ?_, fun p hp => ?_⟩
    · exact List.splitOn_ne_nil c _ (h.trans hnil)
    · rw [← h] at hp
      exact (mem_splitOn _ p hp).1
  · rintro ⟨hne, hparts⟩
    exact List.splitOn_intercalate c hparts hne

end Text
