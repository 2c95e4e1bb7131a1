import Falach.Lib.BestPaths
import Falach.Lib.Text
/-!
# The fuzzy matcher

The scores of `fuzzy_match`: a table with a row for each character of the needle, filled from left to right with one
running best in place of all the gaps that end at a column. `fuzzy_match_reference` fills the same table by looking at
every predecessor.
-/

namespace Falach

/-- What the matcher asks of the Unicode tables. -/
structure CharFunctions where
  isUppercase : Char → Bool
  isLowercase : Char → Bool
  isAlphanumeric : Char → Bool
  toLowercase : Char → List Char

/-- An index past the end of a vector: the program panics. -/
structure OutOfBounds where
  index : Nat
deriving DecidableEq

/-! ## Scoring -/

namespace Scoring

def scoreMatch : Int32 := 16

def scoreGapStart : Int32 := -3

def scoreGapExt : Int32 := -1

def bonusBoundary : Int32 := 8

def bonusCamel : Int32 := 7

def bonusConsecutive : Int32 := 4

def bonusFirstCharMult : Int32 := 2

end Scoring

open Scoring

/-- `UNREACHABLE`, which is `i32::MIN / 2`. -/
def unreachable : Int32 := Int32.minValue / 2

def usizeMax : Nat := 2 ^ 64 - 1

/-- `i32::try_from(..).unwrap_or(i32::MAX)`. -/
def clampI32 (n : Nat) : Int32 := if n < 2 ^ 31 then Int32.ofNat n else Int32.maxValue

/-- `u32::try_from(..).unwrap_or(u32::MAX)`. -/
def clampU32 (n : Nat) : UInt32 := if n < 2 ^ 32 then UInt32.ofNat n else UInt32.ofNat (2 ^ 32 - 1)

structure FuzzyMatch where
  score : Int32
  indices : List UInt32
deriving DecidableEq

section

variable (f : CharFunctions)

def charMatches (n h : Char) : Bool :=
  if f.isUppercase n then n == h else n == h || f.toLowercase n == f.toLowercase h

def positionBonus (prev : Option Char) (cur : Char) : Int32 :=
  match prev with
  | none => bonusBoundary * bonusFirstCharMult
  | some p =>
    if ¬ f.isAlphanumeric p then bonusBoundary
    else if f.isLowercase p ∧ f.isUppercase cur then bonusCamel
    else 0

/-- The loop of `is_subsequence`; the needle is what is left of it from `ni` on. -/
def isSubsequence : Text → Text → Bool
  | [], _ => true
  | _ :: _, [] => false
  | n :: needle, h :: haystack =>
    if charMatches f n h then isSubsequence needle haystack else isSubsequence (n :: needle) haystack

/-- The bonus of a position, from the character there and the one before. -/
def bonusAt (haystack : Text) (j : Nat) : Int32 :=
  match haystack[j]? with
  | none => 0
  | some h => positionBonus f (if j = 0 then none else haystack[j - 1]?) h

end

/-! ## The table -/

/-- `dp[i][j]` and `parent[i][j]`. -/
structure Cell where
  score : Int32
  parent : Nat
deriving DecidableEq

namespace Cell

def empty : Cell := ⟨unreachable, usizeMax⟩

/-- The better of a score and a new one, with the places they come from; the new one has to be strictly better. -/
def improve (best : Cell) (score : Int32) (k : Nat) : Cell := if best.score < score then ⟨score, k⟩ else best

end Cell

/-- A cell of a row; the table has no row before the first. -/
def cellAt (row : List Cell) (j : Nat) : Cell := row.getD j .empty

section

variable (f : CharFunctions) (haystack : Text)

/-- The cell for a character that matches, when `best` leads to it. -/
def reachedFrom (best : Cell) (j : Nat) : Cell :=
  if unreachable < best.score then ⟨best.score + scoreMatch + bonusAt f haystack j, best.parent⟩ else .empty

/-- The loop of `fuzzy_match` over a row. -/
structure RowCursor where
  bestGap : Cell
  row : List Cell

/-- The step of the running best into column `j`. -/
def advanceGap (i j : Nat) (prev : List Cell) (bestGap : Cell) : Cell :=
  if 0 < i ∧ 2 ≤ j then
    let prevScore := (cellAt prev (j - 2)).score
    if prevScore ≠ unreachable then bestGap.improve (prevScore - scoreGapExt * clampI32 (j - 2)) (j - 2) else bestGap
  else bestGap

/-- The best gap to column `j`. -/
def bestOfGaps (j : Nat) (bestGap : Cell) : Cell :=
  if bestGap.score ≠ unreachable then
    ⟨bestGap.score + scoreGapStart + scoreGapExt * (clampI32 j - 2), bestGap.parent⟩
  else .empty

/-- The best predecessor of column `j`: the gaps first, the adjacent one only if it is strictly better. -/
def bestPredecessor (j : Nat) (prev : List Cell) (bestGap : Cell) : Cell :=
  let best := bestOfGaps j bestGap
  if 0 < j then
    let prevScore := (cellAt prev (j - 1)).score
    if prevScore ≠ unreachable then best.improve (prevScore + bonusConsecutive) (j - 1) else best
  else best

def fillStep (i : Nat) (n : Char) (prev : List Cell) (c : RowCursor) (j : Nat) : RowCursor :=
  let bestGap := advanceGap i j prev c.bestGap
  if (haystack[j]?.map (charMatches f n)).getD false then
    let cell := if i = 0 then ⟨scoreMatch + bonusAt f haystack j, usizeMax⟩
      else reachedFrom f haystack (bestPredecessor j prev bestGap) j
    ⟨bestGap, c.row.set j cell⟩
  else ⟨bestGap, c.row⟩

/-- A row of the table. -/
def fillRow (i : Nat) (n : Char) (prev : List Cell) : List Cell :=
  ((List.range' i (haystack.length - i)).foldl (fillStep f haystack i n prev)
    ⟨.empty, List.replicate haystack.length .empty⟩).row

/-- What the reference adds for a step from `k` to `j`. -/
def stepScore (k j : Nat) : Int32 :=
  if k = j - 1 then bonusConsecutive else scoreGapStart + scoreGapExt * (clampI32 (j - k - 1) - 1)

/-- The best predecessor of column `j` among all of them. -/
def scanPredecessors (i j : Nat) (prev : List Cell) : Cell :=
  (List.range' (i - 1) (j - (i - 1))).foldl (fun best k =>
    let prevScore := (cellAt prev k).score
    if prevScore = unreachable then best else best.improve (prevScore + stepScore k j) k) .empty

def fillStepReference (i : Nat) (n : Char) (prev row : List Cell) (j : Nat) : List Cell :=
  if (haystack[j]?.map (charMatches f n)).getD false then
    row.set j (if i = 0 then ⟨scoreMatch + bonusAt f haystack j, usizeMax⟩
      else reachedFrom f haystack (scanPredecessors i j prev) j)
  else row

def fillRowReference (i : Nat) (n : Char) (prev : List Cell) : List Cell :=
  (List.range' i (haystack.length - i)).foldl (fillStepReference f haystack i n prev)
    (List.replicate haystack.length .empty)

/-- The rows from `i` on, for the rest of the needle. -/
def fillRows (fill : Nat → Char → List Cell → List Cell) : Nat → List Cell → Text → List (List Cell)
  | _, _, [] => []
  | i, prev, n :: needle => let row := fill i n prev; row :: fillRows fill (i + 1) row needle

/-- The best end of a match in the last row. -/
def bestEnd (haystack : Text) (m : Nat) (last : List Cell) : Cell :=
  (List.range' (m - 1) (haystack.length - (m - 1))).foldl (fun best j => best.improve (cellAt last j).score j) .empty

/-- The loop that reads the indices off, from row `i` up. -/
def traceBack (rows : List (List Cell)) : (i j : Nat) → List UInt32 → Except OutOfBounds (List UInt32)
  | 0, j, indices => .ok (clampU32 j :: indices)
  | i + 1, j, indices =>
    match (rows.getD (i + 1) [])[j]? with
    | some cell => traceBack rows i cell.parent (clampU32 j :: indices)
    | none => .error ⟨j⟩

/-- What `fuzzy_match` and its reference share: all but how a row is filled. -/
def fuzzyMatchWith (fill : Nat → Char → List Cell → List Cell) (needle : Text) :
    Except OutOfBounds (Option FuzzyMatch) :=
  if needle = [] then .ok (some ⟨0, []⟩)
  else if ¬ isSubsequence f needle haystack then .ok none
  else
    let m := needle.length
    let rows := fillRows fill 0 [] needle
    let best := bestEnd haystack m (rows.getD (m - 1) [])
    if best.parent = usizeMax then .ok none
    else (traceBack rows (m - 1) best.parent []).map fun indices => some ⟨best.score, indices⟩

end

section

variable (f : CharFunctions) (needle haystack : Text)

def fuzzyMatch : Except OutOfBounds (Option FuzzyMatch) := fuzzyMatchWith f haystack (fillRow f haystack) needle

def fuzzyMatchReference : Except OutOfBounds (Option FuzzyMatch) :=
  fuzzyMatchWith f haystack (fillRowReference f haystack) needle

end
end Falach
