import Falach.Lib.Text
/-!
# Lines

The lines of a text, without what ends them.
-/

namespace Text

/-- A line without a carriage return at its end. -/
def dropCr (line : Text) : Text := if line.getLast? = some '\r' then line.dropLast else line

/-- `str::lines`: what comes after the last line break is a line too, unless it is empty. -/
def lines (s : Text) : List Text :=
  let parts := s.splitOn '\n'
  parts.dropLast.map dropCr ++ if parts.getLastD [] = [] then [] else [parts.getLastD []]

variable {s line : Text} {ls : List Text} {c : Char}

theorem dropCr_subset : dropCr line ⊆ line := by
  unfold dropCr
  split
  · exact List.dropLast_subset line
  · exact List.Subset.refl line

/-- There is no line break in a line. -/
theorem newline_notMem (h : line ∈ lines s) : '\n' ∉ line := by
  rcases List.mem_append.1 h with h | h
  · obtain ⟨part, hpart, rfl⟩ := List.mem_map.1 h
    have hfree := (mem_splitOn s part (List.dropLast_subset _ hpart)).1
    exact fun hin => hfree (dropCr_subset hin)
  · split at h
    · cases h
    · obtain rfl := List.mem_singleton.1 h
      have hne : s.splitOn '\n' ≠ [] := List.splitOn_ne_nil _ _
      refine (mem_splitOn s _ ?_).1
      rw [List.getLastD_eq_getLast?, List.getLast?_eq_some_getLast hne, Option.getD_some]
      exact List.getLast_mem hne

/-- Lines that are all ended. -/
def unlines (ls : List Text) : Text := ls.flatMap fun line => line ++ ['\n']

/-- Lines that each come after a line break. -/
def endings (ls : List Text) : Text := ls.flatMap fun line => '\n' :: line

@[simp] theorem unlines_concat (ls : List Text) (line : Text) :
    unlines (ls ++ [line]) = unlines ls ++ line ++ ['\n'] := by
  simp [unlines]

@[simp] theorem endings_cons (line : Text) (ls : List Text) : endings (line :: ls) = '\n' :: line ++ endings ls := by
  simp [endings]

/-- The lines around one of them. -/
theorem intercalate_lines (above : List Text) (line : Text) (below : List Text) :
    ['\n'].intercalate (above ++ line :: below) = unlines above ++ line ++ endings below := by
  induction above generalizing line with
  | nil =>
    induction below generalizing line with
    | nil => simp [unlines, endings]
    | cons next below ih =>
      have htail := ih next
      rw [List.nil_append] at htail
      rw [List.nil_append, List.intercalate_cons_cons, htail, endings_cons]
      simp [unlines]
  | cons first above ih =>
    have hcons : unlines (first :: above) = first ++ ['\n'] ++ unlines above := by simp [unlines]
    have hjoin : ['\n'].intercalate (first :: above ++ line :: below) =
        first ++ ['\n'] ++ ['\n'].intercalate (above ++ line :: below) := by
      cases above with
      | nil => exact List.intercalate_cons_cons
      | cons next above => exact List.intercalate_cons_cons
    rw [hjoin, ih, hcons]
    simp only [List.append_assoc]

theorem unlines_eq_intercalate (ls : List Text) : unlines ls = ['\n'].intercalate (ls ++ [[]]) := by
  rw [intercalate_lines]
  simp [endings]

/-- Lines that were written and ended are read again, without their carriage returns. -/
theorem lines_unlines (h : ∀ line ∈ ls, '\n' ∉ line) : lines (unlines ls) = ls.map dropCr := by
  have hsplit : (unlines ls).splitOn '\n' = ls ++ [[]] := by
    rw [unlines_eq_intercalate]
    refine splitOn_intercalate_iff.2 ⟨by simp, fun line hline => ?_⟩
    rcases List.mem_append.1 hline with hline | hline
    · exact h line hline
    · cases List.mem_singleton.1 hline
      exact List.not_mem_nil
  simp only [lines, hsplit, List.dropLast_concat, List.getLastD_concat, if_true, List.append_nil]

theorem trim_append_whitespace (hc : isWhitespace c = true) : trim (s ++ [c]) = trim s := by
  unfold trim
  rw [List.dropWhile_append]
  split
  · rename_i hall
    rw [List.isEmpty_iff.1 hall, List.dropWhile_cons_of_pos hc]
    rfl
  · rw [List.rdropWhile_concat_pos _ _ _ hc]

/-- A carriage return is white space. -/
theorem trim_dropCr (line : Text) : trim (dropCr line) = trim line := by
  unfold dropCr
  split
  · rename_i hlast
    obtain ⟨start, rfl⟩ := List.getLast?_eq_some_iff.1 hlast
    rw [List.dropLast_concat, trim_append_whitespace (by decide)]
  · rfl

/-- There is one first line of a kind. -/
theorem first_unique {α : Type} {P : α → Prop} {before before' after after' : List α} {x x' : α}
    (h : before ++ x :: after = before' ++ x' :: after') (hbefore : ∀ y ∈ before, ¬ P y) (hx : P x)
    (hbefore' : ∀ y ∈ before', ¬ P y) (hx' : P x') : before = before' ∧ x = x' ∧ after = after' := by
  induction before generalizing before' with
  | nil =>
    cases before' with
    | nil => exact ⟨rfl, List.head_eq_of_cons_eq h, List.tail_eq_of_cons_eq h⟩
    | cons y before' =>
      have hy : x = y := List.head_eq_of_cons_eq h
      exact absurd (hy ▸ hx) (hbefore' y List.mem_cons_self)
  | cons y before ih =>
    cases before' with
    | nil =>
      have hy : y = x' := List.head_eq_of_cons_eq h
      exact absurd (hy ▸ hx') (hbefore y List.mem_cons_self)
    | cons z before' =>
      obtain ⟨hsame, hx, hafter⟩ := ih (List.tail_eq_of_cons_eq h) (fun w hw => hbefore w (List.mem_cons_of_mem y hw))
        fun w hw => hbefore' w (List.mem_cons_of_mem z hw)
      have hy : y = z := List.head_eq_of_cons_eq h
      exact ⟨by rw [hy, hsame], hx, hafter⟩

end Text
