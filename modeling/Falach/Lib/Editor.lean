import Falach.Lib.Lines
import Falach.Lib.Offsets
/-!
# A text editor

One text and a place in it: what is before the cursor and what is after it.
-/

structure Editor where
  before : Text
  after : Text
deriving DecidableEq

namespace Editor

/-- The cursor is at the end. -/
def ofText (s : Text) : Editor := ⟨s, []⟩

def text (e : Editor) : Text := e.before ++ e.after

/-- The number of line breaks before the cursor. -/
def row (e : Editor) : Nat := e.before.count '\n'

/-- What is before the cursor in its line. -/
def lineStart (e : Editor) : Text := e.before.rtakeWhile fun c => c ≠ '\n'

def column (e : Editor) : Nat := e.lineStart.length

def insert (c : Char) (e : Editor) : Editor := ⟨e.before ++ [c], e.after⟩

def backspace (e : Editor) : Editor := ⟨e.before.dropLast, e.after⟩

def left (e : Editor) : Editor :=
  match e.before.getLast? with
  | some c => ⟨e.before.dropLast, c :: e.after⟩
  | none => e

def right (e : Editor) : Editor :=
  match e.after with
  | c :: after => ⟨e.before ++ [c], after⟩
  | [] => e

/-- To the line above, as many bytes into it as the cursor was in its own, or less to be at a character. -/
def up (e : Editor) : Editor :=
  let above := e.before.rdropWhile fun c => c ≠ '\n'
  if above = [] then e
  else
    let line := above.dropLast.rtakeWhile fun c => c ≠ '\n'
    let start := Text.takeBytes e.lineStart.byteLen line
    ⟨(above.dropLast.rdropWhile fun c => c ≠ '\n') ++ start, line.drop start.length ++ '\n' :: (e.lineStart ++ e.after)⟩

/-- To the line below, likewise. -/
def down (e : Editor) : Editor :=
  match e.after.dropWhile fun c => c ≠ '\n' with
  | [] => e
  | c :: below =>
    let line := below.takeWhile fun c => c ≠ '\n'
    let start := Text.takeBytes e.lineStart.byteLen line
    ⟨e.before ++ (e.after.takeWhile fun c => c ≠ '\n') ++ c :: start,
      line.drop start.length ++ below.dropWhile fun c => c ≠ '\n'⟩

/-! ## Lines around the cursor -/

/-- The editor of a text in lines: those above the cursor, its own on both sides, and those below. -/
def ofLines (above : List Text) (start rest : Text) (below : List Text) : Editor :=
  ⟨Text.unlines above ++ start, rest ++ Text.endings below⟩

variable {above below : List Text} {start rest line : Text}

theorem ofLines_text (above : List Text) (start rest : Text) (below : List Text) :
    (ofLines above start rest below).text = ['\n'].intercalate (above ++ (start ++ rest) :: below) := by
  rw [Text.intercalate_lines]
  simp only [text, ofLines, List.append_assoc]

/-- The last line is what comes after the last line break. -/
theorem rsplit_line (above : List Text) (h : '\n' ∉ start) :
    (Text.unlines above ++ start).rtakeWhile (fun c => c ≠ '\n') = start ∧
      (Text.unlines above ++ start).rdropWhile (fun c => c ≠ '\n') = Text.unlines above := by
  induction start using List.reverseRecOn with
  | nil =>
    rw [List.append_nil]
    induction above using List.reverseRecOn with
    | nil => exact ⟨rfl, rfl⟩
    | append_singleton above line _ =>
      rw [Text.unlines_concat]
      exact ⟨List.rtakeWhile_concat_neg _ _ _ (by simp), List.rdropWhile_concat_neg _ _ _ (by simp)⟩
  | append_singleton start c ih =>
    have hc : c ≠ '\n' := fun hc => h (List.mem_append_right start (List.mem_singleton.2 hc.symm))
    obtain ⟨htake, hdrop⟩ := ih fun hin => h (List.mem_append_left [c] hin)
    rw [← List.append_assoc, List.rtakeWhile_concat_pos _ _ _
      (by simpa using hc), List.rdropWhile_concat_pos _ _ _ (by simpa using hc)]
    exact ⟨by rw [htake], hdrop⟩

/-- The first line is what comes before the first line break. -/
theorem split_line (below : List Text) (h : '\n' ∉ rest) :
    (rest ++ Text.endings below).takeWhile (fun c => c ≠ '\n') = rest ∧
      (rest ++ Text.endings below).dropWhile (fun c => c ≠ '\n') = Text.endings below := by
  induction rest with
  | nil => cases below <;> simp [Text.endings]
  | cons c rest ih =>
    have hc : c ≠ '\n' := fun hc => h (hc ▸ List.mem_cons_self)
    obtain ⟨htake, hdrop⟩ := ih fun hin => h (List.mem_cons_of_mem c hin)
    rw [List.cons_append, List.takeWhile_cons_of_pos
      (by simpa using hc), List.dropWhile_cons_of_pos (by simpa using hc)]
    exact ⟨by rw [htake], hdrop⟩

theorem ofLines_lineStart (h : '\n' ∉ start) : (ofLines above start rest below).lineStart = start :=
  (rsplit_line above h).1

theorem ofLines_column (h : '\n' ∉ start) : (ofLines above start rest below).column = start.length := by
  rw [column, ofLines_lineStart h]

theorem ofLines_row (habove : ∀ l ∈ above, '\n' ∉ l) (h : '\n' ∉ start) :
    (ofLines above start rest below).row = above.length := by
  have hunlines : (Text.unlines above).count '\n' = above.length := by
    induction above with
    | nil => rfl
    | cons line above ih =>
      obtain ⟨hline, habove⟩ := List.forall_mem_cons.1 habove
      have hcons : Text.unlines (line :: above) = line ++ ['\n'] ++ Text.unlines above := by simp [Text.unlines]
      rw [hcons, List.count_append, List.count_append, List.count_eq_zero_of_not_mem hline, ih habove]
      simp [Nat.add_comm]
  simp only [row, ofLines, List.count_append, hunlines, List.count_eq_zero_of_not_mem h, Nat.add_zero]

section

variable {c : Char} (above below : List Text) (start rest line : Text)

theorem insert_ofLines : (ofLines above start rest below).insert c = ofLines above (start ++ [c]) rest below := by
  simp only [insert, ofLines, List.append_assoc]

/-- A line break in a line makes two lines of it. -/
theorem insert_break : (ofLines above start rest below).insert '\n' = ofLines (above ++ [start]) [] rest below := by
  simp only [insert, ofLines, Text.unlines_concat, List.append_nil]

theorem backspace_char : (ofLines above (start ++ [c]) rest below).backspace = ofLines above start rest below := by
  simp only [backspace, ofLines, ← List.append_assoc, List.dropLast_concat]

theorem backspace_break : (ofLines (above ++ [line]) [] rest below).backspace = ofLines above line rest below := by
  simp only [backspace, ofLines, Text.unlines_concat, List.append_nil, List.dropLast_concat]

theorem left_char : (ofLines above (start ++ [c]) rest below).left = ofLines above start (c :: rest) below := by
  simp only [left, ofLines, ← List.append_assoc, List.getLast?_concat, List.dropLast_concat, List.cons_append]

theorem left_break : (ofLines (above ++ [line]) [] rest below).left = ofLines above line [] (rest :: below) := by
  simp only [left, ofLines, Text.unlines_concat, List.append_nil, List.getLast?_concat, List.dropLast_concat,
    Text.endings_cons,
    List.nil_append, List.cons_append]

theorem right_char : (ofLines above start (c :: rest) below).right = ofLines above (start ++ [c]) rest below := by
  simp only [right, ofLines, List.cons_append, List.append_assoc]

theorem right_break : (ofLines above start [] (line :: below)).right = ofLines (above ++ [start]) [] line below := by
  simp only [right, ofLines, Text.unlines_concat, Text.endings_cons, List.nil_append, List.cons_append, List.append_nil]

/-- The cursor moves to the start of the line above that has as many bytes as were before it. -/
theorem up_ofLines (hstart : '\n' ∉ start) (hline : '\n' ∉ line) :
    (ofLines (above ++ [line]) start rest below).up = ofLines above (Text.takeBytes start.byteLen line)
      (line.drop (Text.takeBytes start.byteLen line).length) ((start ++ rest) :: below) := by
  obtain ⟨htake, hdrop⟩ := rsplit_line (above ++ [line]) hstart
  have hne : Text.unlines (above ++ [line]) ≠ [] := by simp
  obtain ⟨htake', hdrop'⟩ := rsplit_line above hline
  have hlast : (Text.unlines (above ++ [line])).dropLast = Text.unlines above ++ line := by
    rw [Text.unlines_concat, List.dropLast_concat]
  simp only [up, ofLines, lineStart, htake, hdrop, hne, if_false, hlast, htake', hdrop', Text.endings_cons,
    List.cons_append,
    List.append_assoc]

theorem up_first (hstart : '\n' ∉ start) : (ofLines [] start rest below).up = ofLines [] start rest below := by
  have hdrop := (rsplit_line [] hstart).2
  simp only [up, ofLines, hdrop]
  exact if_pos rfl

theorem down_ofLines (hstart : '\n' ∉ start) (hrest : '\n' ∉ rest) (hline : '\n' ∉ line) :
    (ofLines above start rest (line :: below)).down = ofLines (above ++ [start ++ rest])
    (Text.takeBytes start.byteLen line)
      (line.drop (Text.takeBytes start.byteLen line).length) below := by
  obtain ⟨htake, hdrop⟩ := split_line (line :: below) hrest
  obtain ⟨htake', hdrop'⟩ := split_line below hline
  have hhead := (rsplit_line above hstart).1
  simp only [down, ofLines, lineStart, hhead, htake, hdrop]
  simp only [Text.endings_cons, List.cons_append, htake', hdrop', Text.unlines_concat, List.append_assoc,
    List.nil_append]

theorem down_last (hrest : '\n' ∉ rest) : (ofLines above start rest []).down = ofLines above start rest [] := by
  have hdrop := (split_line [] hrest).2
  simp only [down, ofLines, hdrop]
  rfl

end

end Editor
