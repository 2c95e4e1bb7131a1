import Falach.Lib.Editor
import Falach.Lib.Loops
import Falach.Tui.EditForm
/-!
# The text area

A text area keeps lines and a byte offset into one of them. It is an editor of one text: what a key does to the lines
is what it does to the text, and no key panics.
-/

namespace Falach.Tui

open Keepass

namespace TextArea

/-! ## Strings and lines -/

/-- `String::insert`. -/
def insertAt (line : Text) (n : Nat) (c : Char) : Except Fault Text := do
  let parts ← expect (line.splitAtByte n)
  return parts.1 ++ c :: parts.2

/-- `String::remove`. -/
def removeAt (line : Text) (n : Nat) : Except Fault Text := do
  let parts ← expect (line.splitAtByte n)
  match parts.2 with
  | [] => .error .panic
  | _ :: rest => return parts.1 ++ rest

/-- `Vec::insert`. -/
def insertLine (lines : List Text) (i : Nat) (line : Text) : Except Fault (List Text) :=
  if i ≤ lines.length then .ok (lines.insertIdx i line) else .error .panic

def prevBoundary (s : Text) (bytePos : Nat) : Except Fault Nat := do
  let parts ← expect (s.splitAtByte bytePos)
  return parts.1.getLast?.elim 0 fun _ => Text.byteLen parts.1.dropLast

def nextBoundary (s : Text) (bytePos : Nat) : Except Fault Nat := do
  let parts ← expect (s.splitAtByte bytePos)
  return parts.2.head?.elim bytePos fun c => bytePos + c.utf8Size

/-- The loop of `floor_boundary`. -/
def floorLoop (s : Text) : Nat → Nat
  | 0 => 0
  | p + 1 => if Text.isBoundary (p + 1) s then p + 1 else floorLoop s p

def floorBoundary (s : Text) (bytePos : Nat) : Nat := floorLoop s (min bytePos s.byteLen)

/-! ## Keys -/

def insertChar (area : TextArea) (c : Char) : Except Fault TextArea := do
  let line ← expect area.lines[area.row]?
  let line ← insertAt line area.col c
  return { area with lines := area.lines.set area.row line, col := area.col + c.utf8Size }

def splitLine (area : TextArea) : Except Fault TextArea := do
  let line ← expect area.lines[area.row]?
  let parts ← expect (line.splitAtByte area.col)
  let lines ← insertLine (area.lines.set area.row parts.1) (area.row + 1) parts.2
  return { lines := lines, row := area.row + 1, col := 0 }

def backspace (area : TextArea) : Except Fault TextArea := do
  if 0 < area.col then
    let line ← expect area.lines[area.row]?
    let prev ← prevBoundary line area.col
    let line ← removeAt line prev
    return { area with lines := area.lines.set area.row line, col := prev }
  else if 0 < area.row then
    let current ← expect area.lines[area.row]?
    let lines := area.lines.eraseIdx area.row
    let row := area.row - 1
    let line ← expect lines[row]?
    return { lines := lines.set row (line ++ current), row := row, col := line.byteLen }
  else return area

def moveLeft (area : TextArea) : Except Fault TextArea := do
  if 0 < area.col then
    let line ← expect area.lines[area.row]?
    let col ← prevBoundary line area.col
    return { area with col := col }
  else if 0 < area.row then
    let line ← expect area.lines[area.row - 1]?
    return { area with row := area.row - 1, col := line.byteLen }
  else return area

def moveRight (area : TextArea) : Except Fault TextArea := do
  let line ← expect area.lines[area.row]?
  if area.col < line.byteLen then
    let col ← nextBoundary line area.col
    return { area with col := col }
  else if area.row + 1 < area.lines.length then return { area with row := area.row + 1, col := 0 }
  else return area

def moveUp (area : TextArea) : Except Fault TextArea := do
  if 0 < area.row then
    let line ← expect area.lines[area.row - 1]?
    return { area with row := area.row - 1, col := floorBoundary line (min area.col line.byteLen) }
  else return area

def moveDown (area : TextArea) : Except Fault TextArea := do
  if area.row + 1 < area.lines.length then
    let line ← expect area.lines[area.row + 1]?
    return { area with row := area.row + 1, col := floorBoundary line (min area.col line.byteLen) }
  else return area

/-- The area after a key, and whether the key was consumed. -/
def onKey (area : TextArea) (key : Key) : Except Fault (TextArea × Bool) :=
  match key.code with
  | .char c => if key.control then .ok (area, false) else (·, true) <$> area.insertChar c
  | .enter => (·, true) <$> area.splitLine
  | .backspace => (·, true) <$> area.backspace
  | .left => (·, true) <$> area.moveLeft
  | .right => (·, true) <$> area.moveRight
  | .up => (·, true) <$> area.moveUp
  | .down => (·, true) <$> area.moveDown
  | _ => .ok (area, false)

/-- The keys one after the other. -/
def run (area : TextArea) (keys : List Key) : Except Fault TextArea :=
  keys.foldlM (fun area key => Prod.fst <$> area.onKey key) area

/-- The row, and the characters before the cursor in it. -/
def cursor (area : TextArea) : Except Fault (Nat × Nat) := do
  let line ← expect area.lines[area.row]?
  let parts ← expect (line.splitAtByte area.col)
  return (area.row, parts.1.length)

end TextArea

/-- What a key does to a text with a cursor. -/
def editorKey (editor : Editor) (key : Key) : Editor :=
  match key.code with
  | .char c => if key.control then editor else editor.insert c
  | .enter => editor.insert '\n'
  | .backspace => editor.backspace
  | .left => editor.left
  | .right => editor.right
  | .up => editor.up
  | .down => editor.down
  | _ => editor

namespace TextArea

/-! ## Lines around the cursor -/

def ofLines (above : List Text) (start rest : Text) (below : List Text) : TextArea :=
  ⟨above ++ (start ++ rest) :: below, above.length, start.byteLen⟩

section

variable {c : Char} (above below : List Text) (start rest line : Text)

theorem line_mid : (above ++ line :: below)[above.length]? = some line := by simp

theorem set_mid (new : Text) : (above ++ line :: below).set above.length new = above ++ new :: below := by
  rw [List.set_append_right _ _ (Nat.le_refl _), Nat.sub_self, List.set_cons_zero]

theorem insertChar_ofLines : (ofLines above start rest below).insertChar c =
    .ok (ofLines above (start ++ [c]) rest below) := by
  simp only [insertChar, ofLines, line_mid, expect, insertAt, Text.splitAtByte_append, set_mid, bind, Except.bind,
    pure, Except.pure]
  simp

theorem insertLine_mid (new : Text) : insertLine (above ++ line :: below)
    (above.length + 1) new = .ok (above ++ line :: new :: below) := by
  have hinsert : (above ++ line :: below).insertIdx (above.length + 1) new = above ++ line :: new :: below := by
    induction above with
    | nil => rfl
    | cons first above ih => exact List.insertIdx_succ_cons.trans (congrArg (first :: ·) ih)
  rw [insertLine, if_pos (by simp), hinsert]

theorem splitLine_ofLines : (ofLines above start rest below).splitLine =
    .ok (ofLines (above ++ [start]) [] rest below) := by
  simp only [splitLine, ofLines, line_mid, expect, Text.splitAtByte_append, set_mid, insertLine_mid, bind,
    Except.bind, pure, Except.pure]
  simp

theorem prevBoundary_append : prevBoundary (start ++ [c] ++ rest) (start ++ [c]).byteLen = .ok start.byteLen := by
  simp only [prevBoundary, Text.splitAtByte_append, expect, bind, Except.bind, pure, Except.pure]
  simp

theorem nextBoundary_append : nextBoundary (start ++ c :: rest) start.byteLen = .ok (start ++ [c]).byteLen := by
  simp only [nextBoundary, Text.splitAtByte_append, expect, bind, Except.bind, pure, Except.pure]
  simp

theorem removeAt_append : removeAt (start ++ [c] ++ rest) start.byteLen = .ok (start ++ rest) := by
  rw [List.append_assoc]
  simp only [removeAt, Text.splitAtByte_append, expect, bind, Except.bind]
  rfl

theorem byteLen_concat_pos : 0 < (start ++ [c]).byteLen := by
  have hc := c.utf8Size_pos
  simp only [Text.byteLen_append, Text.byteLen_cons]
  omega

theorem backspace_char : (ofLines above (start ++ [c]) rest below).backspace =
    .ok (ofLines above start rest below) := by
  simp only [backspace, ofLines, if_pos (byteLen_concat_pos start), line_mid, expect, prevBoundary_append,
    removeAt_append, set_mid,
    bind, Except.bind, pure, Except.pure]

/-- The line goes to the end of the one above. -/
theorem backspace_break : (ofLines (above ++ [line]) [] rest below).backspace =
    .ok (ofLines above line rest below) := by
  have hcurrent : (above ++ [line] ++ rest :: below)[above.length + 1]? = some rest := by simp
  have herase : (above ++ [line] ++ rest :: below).eraseIdx (above.length + 1) = above ++ line :: below := by
    rw [List.eraseIdx_append_of_length_le (by simp), List.append_assoc]
    simp
  simp only [backspace, ofLines, Text.byteLen_nil, Nat.lt_irrefl, if_false, List.length_append,
    List.length_singleton, Nat.succ_pos,
    if_true, List.nil_append, hcurrent, herase, Nat.add_sub_cancel, line_mid, set_mid, expect, bind, Except.bind,
      pure, Except.pure]

theorem backspace_first : (ofLines [] [] rest below).backspace = .ok (ofLines [] [] rest below) := rfl

theorem moveLeft_char : (ofLines above (start ++ [c]) rest below).moveLeft =
    .ok (ofLines above start (c :: rest) below) := by
  simp only [moveLeft, ofLines, if_pos (byteLen_concat_pos start), line_mid, expect, prevBoundary_append, bind,
    Except.bind, pure,
    Except.pure]
  simp

theorem moveLeft_break : (ofLines (above ++ [line]) [] rest below).moveLeft =
    .ok (ofLines above line [] (rest :: below)) := by
  have hline : (above ++ [line] ++ rest :: below)[above.length]? = some line := by simp
  simp only [moveLeft, ofLines, Text.byteLen_nil, Nat.lt_irrefl, if_false, List.length_append,
    List.length_singleton, Nat.succ_pos,
    if_true, List.nil_append, Nat.add_sub_cancel, hline, expect, bind, Except.bind, pure, Except.pure]
  simp

theorem moveLeft_first : (ofLines [] [] rest below).moveLeft = .ok (ofLines [] [] rest below) := rfl

theorem moveRight_char : (ofLines above start (c :: rest) below).moveRight =
    .ok (ofLines above (start ++ [c]) rest below) := by
  have hlt : start.byteLen < (start ++ c :: rest).byteLen := by
    have hc := c.utf8Size_pos
    simp only [Text.byteLen_append, Text.byteLen_cons]
    omega
  simp only [moveRight, ofLines, line_mid, expect, hlt, if_true, nextBoundary_append, bind, Except.bind, pure,
    Except.pure,
    List.append_assoc, List.singleton_append]

theorem moveRight_break : (ofLines above start [] (line :: below)).moveRight =
    .ok (ofLines (above ++ [start]) [] line below) := by
  simp only [moveRight, ofLines, line_mid, expect, List.append_nil, Nat.lt_irrefl, if_false, bind, Except.bind,
    pure, Except.pure]
  simp

theorem moveRight_last : (ofLines above start [] []).moveRight = .ok (ofLines above start [] []) := by
  simp only [moveRight, ofLines, line_mid, expect, List.append_nil, Nat.lt_irrefl, if_false, bind, Except.bind,
    pure, Except.pure]
  simp

/-- Going down from the offset, the first boundary is the end of what fits. -/
theorem floorLoop_eq {n p : Nat} (hlow : (Text.takeBytes n line).byteLen ≤ p) (hp : p ≤ n) :
    floorLoop line p = (Text.takeBytes n line).byteLen := by
  have hparts := Text.takeBytes_append_drop n line
  induction p with
  | zero => exact (Nat.le_zero.1 hlow).symm
  | succ p ih =>
    rw [floorLoop]
    split
    · rename_i hboundary
      obtain ⟨a, b, hline, ha⟩ := Text.isBoundary_iff.1 hboundary
      have hfits : a.byteLen ≤ (Text.takeBytes n (a ++ b)).byteLen := Text.byteLen_le_takeBytes (ha.le.trans hp)
      rw [← hline, ha] at hfits
      exact Nat.le_antisymm hfits hlow
    · rename_i hboundary
      have hne : (Text.takeBytes n line).byteLen ≠ p + 1 := fun h =>
        hboundary (Text.isBoundary_iff.2 ⟨_, _, hparts.symm, h⟩)
      exact ih (by omega) (by omega)

theorem floorBoundary_eq (n : Nat) : floorBoundary line (min n line.byteLen) = (Text.takeBytes n line).byteLen := by
  have hparts := congrArg Text.byteLen (Text.takeBytes_append_drop n line)
  rw [Text.byteLen_append] at hparts
  have hle := Text.byteLen_takeBytes_le n line
  exact floorLoop_eq line (by omega) (by omega)

theorem moveUp_ofLines : (ofLines (above ++ [line]) start rest below).moveUp =
    .ok (ofLines above (Text.takeBytes start.byteLen line)
    (line.drop (Text.takeBytes start.byteLen line).length) ((start ++ rest) :: below)) := by
  have hline : (above ++ [line] ++ (start ++ rest) :: below)[above.length]? = some line := by simp
  simp only [moveUp, ofLines, List.length_append, List.length_singleton, Nat.succ_pos, if_true, Nat.add_sub_cancel,
    hline, expect,
    floorBoundary_eq, Text.takeBytes_append_drop, bind, Except.bind, pure, Except.pure]
  simp

theorem moveUp_first : (ofLines [] start rest below).moveUp = .ok (ofLines [] start rest below) := rfl

theorem moveDown_ofLines : (ofLines above start rest (line :: below)).moveDown = .ok (ofLines (above ++ [start ++ rest])
    (Text.takeBytes start.byteLen line) (line.drop (Text.takeBytes start.byteLen line).length) below) := by
  have hline : (above ++ (start ++ rest) :: line :: below)[above.length + 1]? = some line := by simp
  have hlt : above.length + 1 < (above ++ (start ++ rest) :: line :: below).length := by simp
  simp only [moveDown, ofLines, hlt, if_true, hline, expect, floorBoundary_eq, Text.takeBytes_append_drop, bind,
    Except.bind, pure,
    Except.pure]
  simp

theorem moveDown_last : (ofLines above start rest []).moveDown = .ok (ofLines above start rest []) := by
  have hlast : ¬ above.length + 1 < (above ++ [start ++ rest]).length := by simp
  simp only [moveDown, ofLines, hlast, if_false, pure, Except.pure]

end

/-! ## The area refines an editor -/

/-- No line break is left in a line. -/
structure Free (above : List Text) (start rest : Text) (below : List Text) : Prop where
  above : ∀ l ∈ above, '\n' ∉ l
  start : '\n' ∉ start
  rest : '\n' ∉ rest
  below : ∀ l ∈ below, '\n' ∉ l

section

variable {above below : List Text} {start rest line : Text} {c : Char}

theorem Free.above_concat (h : Free above start rest below) (hline : '\n' ∉ line) :
    ∀ l ∈ above ++ [line], '\n' ∉ l := by
  intro l hl
  rcases List.mem_append.1 hl with hl | hl
  · exact h.above l hl
  · cases List.mem_singleton.1 hl
    exact hline

theorem Free.line_above (h : Free (above ++ [line]) start rest below) : '\n' ∉ line :=
  h.above line (List.mem_append_right above (List.mem_singleton_self line))

theorem Free.lines_above (h : Free (above ++ [line]) start rest below) : ∀ l ∈ above, '\n' ∉ l :=
  fun l hl => h.above l (List.mem_append_left [line] hl)

theorem Free.before (h : Free above (start ++ [c]) rest below) : '\n' ∉ start ∧ c ≠ '\n' :=
  ⟨fun hin => h.start (List.mem_append_left [c] hin), fun hc => h.start (by simp [hc])⟩

theorem Free.after (h : Free above start (c :: rest) below) : c ≠ '\n' ∧ '\n' ∉ rest :=
  ⟨fun hc => h.rest (by simp [hc]), fun hin => h.rest (List.mem_cons_of_mem c hin)⟩

theorem Free.whole (h : Free above start rest below) : '\n' ∉ start ++ rest := by
  rw [List.mem_append]
  exact not_or.2 ⟨h.start, h.rest⟩

/-- A line has no line break on either side of a place in it. -/
theorem free_takeBytes (n : Nat) (h : '\n' ∉ line) :
    '\n' ∉ Text.takeBytes n line ∧ '\n' ∉ line.drop (Text.takeBytes n line).length := by
  rw [← Text.takeBytes_append_drop n line] at h
  exact ⟨fun hin => h (List.mem_append_left _ hin), fun hin => h (List.mem_append_right _ hin)⟩

end

/-- The cursor is at a character of a line that is there. Unless a key broke a line, the area shows the text of the
editor in lines, with the cursor at the same place. -/
def Refines (unbroken : Prop) (area : TextArea) (editor : Editor) : Prop :=
  ∃ above start rest below, area = ofLines above start rest below ∧
    (unbroken → Free above start rest below ∧ editor = Editor.ofLines above start rest below)

variable {unbroken : Prop} {area : TextArea} {editor : Editor}

theorem refines_fromStr (value : String) : Refines unbroken (fromStr value) (Editor.ofText value.toList) := by
  have hfree : ∀ l ∈ value.toList.splitOn '\n', '\n' ∉ l := fun l hl => (Text.mem_splitOn value.toList l hl).1
  have hjoin : ['\n'].intercalate (value.toList.splitOn '\n') = value.toList := List.intercalate_splitOn '\n'
  obtain ⟨above, last, hlines⟩ :=
    (List.eq_nil_or_concat' (value.toList.splitOn '\n')).resolve_left (List.splitOn_ne_nil _ _)
  rw [hlines] at hfree hjoin
  have habove : ∀ l ∈ above, '\n' ∉ l := fun l hl => hfree l (List.mem_append_left _ hl)
  have hlast : '\n' ∉ last := hfree last (List.mem_append_right above (List.mem_singleton_self last))
  refine ⟨above, last, [], [], ?_, fun _ =>
    ⟨⟨habove, hlast, List.not_mem_nil, fun l hl => absurd hl List.not_mem_nil⟩, ?_⟩⟩
  · simp only [fromStr, hlines, ofLines, Text.utf8ByteSize_ofList, List.length_append, List.length_singleton,
      Nat.add_sub_cancel, List.append_nil, List.getLastD_concat]
  · rw [Text.intercalate_lines] at hjoin
    simp only [Editor.ofText, Editor.ofLines, ← hjoin]
    simp [Text.endings]

theorem Refines.value_eq (h : Refines unbroken area editor) (hunbroken : unbroken) :
    area.value.toList = editor.text := by
  obtain ⟨above, start, rest, below, rfl, hshown⟩ := h
  obtain ⟨-, rfl⟩ := hshown hunbroken
  rw [Editor.ofLines_text, TextArea.value, String.toList_ofList]
  rfl

theorem Refines.cursor_eq (h : Refines unbroken area editor) (hunbroken : unbroken) :
    area.cursor = .ok (editor.row, editor.column) := by
  obtain ⟨above, start, rest, below, rfl, hshown⟩ := h
  obtain ⟨hfree, rfl⟩ := hshown hunbroken
  rw [Editor.ofLines_row hfree.above hfree.start, Editor.ofLines_column hfree.start]
  simp only [cursor, ofLines, line_mid, Text.splitAtByte_append, expect, bind, Except.bind, pure, Except.pure]

theorem Refines.boundary (h : Refines unbroken area editor) :
    ∃ line, area.lines[area.row]? = some line ∧ Text.isBoundary area.col line := by
  obtain ⟨above, start, rest, below, rfl, -⟩ := h
  exact ⟨start ++ rest, line_mid above below _, Text.isBoundary_iff.2 ⟨start, rest, rfl, rfl⟩⟩

/-! ## Keys -/

theorem Refines.insertChar {c : Char} (h : Refines unbroken area editor) (hc : unbroken → c ≠ '\n') :
    ∃ area', area.insertChar c = .ok area' ∧ Refines unbroken area' (editor.insert c) := by
  obtain ⟨above, start, rest, below, rfl, hshown⟩ := h
  refine ⟨_, insertChar_ofLines above below start rest, above, start ++ [c], rest, below, rfl, fun hunbroken => ?_⟩
  obtain ⟨hfree, rfl⟩ := hshown hunbroken
  have hstart : '\n' ∉ start ++ [c] := by simp [hfree.start, (hc hunbroken).symm]
  exact ⟨{ hfree with start := hstart }, Editor.insert_ofLines ..⟩

theorem Refines.splitLine (h : Refines unbroken area editor) :
    ∃ area', area.splitLine = .ok area' ∧ Refines unbroken area' (editor.insert '\n') := by
  obtain ⟨above, start, rest, below, rfl, hshown⟩ := h
  refine ⟨_, splitLine_ofLines above below start rest, above ++ [start], [], rest, below, rfl, fun hunbroken => ?_⟩
  obtain ⟨hfree, rfl⟩ := hshown hunbroken
  exact ⟨⟨hfree.above_concat hfree.start, List.not_mem_nil, hfree.rest, hfree.below⟩, Editor.insert_break ..⟩

theorem Refines.backspace (h : Refines unbroken area editor) :
    ∃ area', area.backspace = .ok area' ∧ Refines unbroken area' editor.backspace := by
  obtain ⟨above, start, rest, below, rfl, hshown⟩ := h
  rcases List.eq_nil_or_concat' start with rfl | ⟨start, c, rfl⟩
  · rcases List.eq_nil_or_concat' above with rfl | ⟨above, line, rfl⟩
    · refine ⟨_, backspace_first below rest, [], [], rest, below, rfl, fun hunbroken => ?_⟩
      obtain ⟨hfree, rfl⟩ := hshown hunbroken
      exact ⟨hfree, rfl⟩
    · refine ⟨_, backspace_break above below rest line, above, line, rest, below, rfl, fun hunbroken => ?_⟩
      obtain ⟨hfree, rfl⟩ := hshown hunbroken
      exact ⟨⟨hfree.lines_above, hfree.line_above, hfree.rest, hfree.below⟩, Editor.backspace_break ..⟩
  · refine ⟨_, backspace_char above below start rest, above, start, rest, below, rfl, fun hunbroken => ?_⟩
    obtain ⟨hfree, rfl⟩ := hshown hunbroken
    exact ⟨{ hfree with start := hfree.before.1 }, Editor.backspace_char ..⟩

theorem Refines.moveLeft (h : Refines unbroken area editor) :
    ∃ area', area.moveLeft = .ok area' ∧ Refines unbroken area' editor.left := by
  obtain ⟨above, start, rest, below, rfl, hshown⟩ := h
  rcases List.eq_nil_or_concat' start with rfl | ⟨start, c, rfl⟩
  · rcases List.eq_nil_or_concat' above with rfl | ⟨above, line, rfl⟩
    · refine ⟨_, moveLeft_first below rest, [], [], rest, below, rfl, fun hunbroken => ?_⟩
      obtain ⟨hfree, rfl⟩ := hshown hunbroken
      exact ⟨hfree, rfl⟩
    · refine ⟨_, moveLeft_break above below rest line, above, line, [], rest :: below, rfl, fun hunbroken => ?_⟩
      obtain ⟨hfree, rfl⟩ := hshown hunbroken
      exact ⟨⟨hfree.lines_above, hfree.line_above, List.not_mem_nil,
        List.forall_mem_cons.2 ⟨hfree.rest, hfree.below⟩⟩, Editor.left_break ..⟩
  · refine ⟨_, moveLeft_char above below start rest, above, start, c :: rest, below, rfl, fun hunbroken => ?_⟩
    obtain ⟨hfree, rfl⟩ := hshown hunbroken
    obtain ⟨hstart, hc⟩ := hfree.before
    exact ⟨⟨hfree.above, hstart, by simp [hfree.rest, hc.symm], hfree.below⟩, Editor.left_char ..⟩

theorem Refines.moveRight (h : Refines unbroken area editor) :
    ∃ area', area.moveRight = .ok area' ∧ Refines unbroken area' editor.right := by
  obtain ⟨above, start, rest, below, rfl, hshown⟩ := h
  cases rest with
  | cons c rest =>
    refine ⟨_, moveRight_char above below start rest, above, start ++ [c], rest, below, rfl, fun hunbroken => ?_⟩
    obtain ⟨hfree, rfl⟩ := hshown hunbroken
    obtain ⟨hc, hrest⟩ := hfree.after
    exact ⟨⟨hfree.above, by simp [hfree.start, hc.symm], hrest, hfree.below⟩, Editor.right_char ..⟩
  | nil =>
    cases below with
    | cons line below =>
      refine ⟨_, moveRight_break above below start line, above ++ [start], [], line, below, rfl, fun hunbroken => ?_⟩
      obtain ⟨hfree, rfl⟩ := hshown hunbroken
      obtain ⟨hline, hbelow⟩ := List.forall_mem_cons.1 hfree.below
      exact ⟨⟨hfree.above_concat hfree.start, List.not_mem_nil, hline, hbelow⟩, Editor.right_break ..⟩
    | nil =>
      refine ⟨_, moveRight_last above start, above, start, [], [], rfl, fun hunbroken => ?_⟩
      obtain ⟨hfree, rfl⟩ := hshown hunbroken
      exact ⟨hfree, rfl⟩

theorem Refines.moveUp (h : Refines unbroken area editor) :
    ∃ area', area.moveUp = .ok area' ∧ Refines unbroken area' editor.up := by
  obtain ⟨above, start, rest, below, rfl, hshown⟩ := h
  rcases List.eq_nil_or_concat' above with rfl | ⟨above, line, rfl⟩
  · refine ⟨_, moveUp_first below start rest, [], start, rest, below, rfl, fun hunbroken => ?_⟩
    obtain ⟨hfree, rfl⟩ := hshown hunbroken
    exact ⟨hfree, Editor.up_first below start rest hfree.start⟩
  · refine ⟨_, moveUp_ofLines above below start rest line, above, _, _, (start ++ rest) :: below, rfl,
      fun hunbroken => ?_⟩
    obtain ⟨hfree, rfl⟩ := hshown hunbroken
    obtain ⟨hstart, hrest⟩ := free_takeBytes start.byteLen hfree.line_above
    exact ⟨⟨hfree.lines_above, hstart, hrest, List.forall_mem_cons.2 ⟨hfree.whole, hfree.below⟩⟩,
      Editor.up_ofLines above below start rest line hfree.start hfree.line_above⟩

theorem Refines.moveDown (h : Refines unbroken area editor) :
    ∃ area', area.moveDown = .ok area' ∧ Refines unbroken area' editor.down := by
  obtain ⟨above, start, rest, below, rfl, hshown⟩ := h
  cases below with
  | nil =>
    refine ⟨_, moveDown_last above start rest, above, start, rest, [], rfl, fun hunbroken => ?_⟩
    obtain ⟨hfree, rfl⟩ := hshown hunbroken
    exact ⟨hfree, Editor.down_last above start rest hfree.rest⟩
  | cons line below =>
    refine ⟨_, moveDown_ofLines above below start rest line, above ++ [start ++ rest], _, _, below, rfl,
      fun hunbroken => ?_⟩
    obtain ⟨hfree, rfl⟩ := hshown hunbroken
    obtain ⟨hline, hbelow⟩ := List.forall_mem_cons.1 hfree.below
    obtain ⟨hstart, hrest⟩ := free_takeBytes start.byteLen hline
    exact ⟨⟨hfree.above_concat hfree.whole, hstart, hrest, hbelow⟩,
      Editor.down_ofLines above below start rest line hfree.start hfree.rest hline⟩

/-- The key puts a line break into a line. -/
def BreaksLine (key : Key) : Prop := key.code = .char '\n' ∧ key.control = false

/-- A key does to the area what it does to the text. -/
theorem Refines.onKey {key : Key} (h : Refines unbroken area editor) (hkey : unbroken → ¬ BreaksLine key) :
    ∃ area', Prod.fst <$> area.onKey key = .ok area' ∧ Refines unbroken area' (editorKey editor key) := by
  have consumed {step : Except Fault TextArea} {editor' : Editor}
      (hstep : ∃ area', step = .ok area' ∧ Refines unbroken area' editor') :
      ∃ area', Prod.fst <$> ((·, true) <$> step) = .ok area' ∧ Refines unbroken area' editor' := by
    obtain ⟨area', rfl, harea⟩ := hstep
    exact ⟨area', rfl, harea⟩
  unfold TextArea.onKey editorKey
  cases hcode : key.code with
  | char c =>
    cases hcontrol : key.control with
    | true => exact ⟨area, rfl, h⟩
    | false =>
      refine consumed (h.insertChar fun hunbroken hc => hkey hunbroken ⟨?_, hcontrol⟩)
      rw [hcode, hc]
  | enter => exact consumed h.splitLine
  | backspace => exact consumed h.backspace
  | left => exact consumed h.moveLeft
  | right => exact consumed h.moveRight
  | up => exact consumed h.moveUp
  | down => exact consumed h.moveDown
  | esc => exact ⟨area, rfl, h⟩
  | tab => exact ⟨area, rfl, h⟩
  | backTab => exact ⟨area, rfl, h⟩
  | other n => exact ⟨area, rfl, h⟩

theorem Refines.run {keys : List Key} (h : Refines unbroken area editor)
    (hkeys : unbroken → ∀ key ∈ keys, ¬ BreaksLine key) :
    ∃ area', area.run keys = .ok area' ∧ Refines unbroken area' (keys.foldl editorKey editor) := by
  induction keys generalizing area editor with
  | nil => exact ⟨area, rfl, h⟩
  | cons key keys ih =>
    obtain ⟨area', hstep, harea⟩ := h.onKey fun hunbroken => hkeys hunbroken key List.mem_cons_self
    obtain ⟨last, hrun, hlast⟩ := ih harea fun hunbroken key hkey => hkeys hunbroken key (List.mem_cons_of_mem _ hkey)
    refine ⟨last, ?_, hlast⟩
    rw [TextArea.run, List.foldlM_cons, hstep]
    exact hrun

/-- Notes come back as they went in, and no keys panic or put the cursor inside a character. If none puts a line break
into a line, the area shows what an editor of the one text has after them, with the cursor at the same row and column.
-/
theorem text_area_refines (value : String) (keys : List Key) : (fromStr value).value = value ∧
    ∃ area, (fromStr value).run keys = .ok area ∧
      (∃ line, area.lines[area.row]? = some line ∧ Text.isBoundary area.col line) ∧
      ((∀ key ∈ keys, ¬ BreaksLine key) → area.value.toList = (keys.foldl editorKey (.ofText value.toList)).text ∧
        area.cursor = .ok ((keys.foldl editorKey (.ofText value.toList)).row,
          (keys.foldl editorKey (.ofText value.toList)).column)) := by
  obtain ⟨area, hrun, harea⟩ := (refines_fromStr value).run fun hkeys : ∀ key ∈ keys, ¬ BreaksLine key => hkeys
  exact ⟨value_fromStr value, area, hrun, harea.boundary, fun hkeys => ⟨harea.value_eq hkeys, harea.cursor_eq hkeys⟩⟩

/-- A letter of two bytes, a new line, and up again. -/
theorem accented_line_shown :
    ∃ area, (fromStr "é").run [{ code := .enter }, { code := .char 'x' }, { code := .up }] = .ok area ∧
      area.value.toList = "é\nx".toList ∧ area.cursor = .ok (0, 0) := by
  obtain ⟨-, area, hrun, -, hshown⟩ :=
    text_area_refines "é" [{ code := .enter }, { code := .char 'x' }, { code := .up }]
  have hkeys : ∀ key ∈ [{ code := .enter }, { code := .char 'x' }, { code := .up }], ¬ BreaksLine key := by
    simp [BreaksLine]
  obtain ⟨hvalue, hcursor⟩ := hshown hkeys
  exact ⟨area, hrun, hvalue.trans (by decide), hcursor.trans (by decide)⟩

/-- A line break that comes as a character is kept in the line: the cursor is still in the first row. -/
theorem break_kept_in_line : ¬ ∀ (value : String) (keys : List Key), ∃ area, (fromStr value).run keys = .ok area ∧
    area.value.toList = (keys.foldl editorKey (.ofText value.toList)).text ∧
    area.cursor = .ok ((keys.foldl editorKey (.ofText value.toList)).row,
      (keys.foldl editorKey (.ofText value.toList)).column) := by
  intro h
  obtain ⟨area, hrun, -, hcursor⟩ := h "" [{ code := .char '\n' }]
  cases hrun
  cases hcursor

end TextArea

end Falach.Tui
