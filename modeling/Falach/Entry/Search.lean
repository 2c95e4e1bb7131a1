import Falach.Core.Crud
import Falach.Entry.Fuzzy
import Falach.Entry.Matcher
import Mathlib.Data.List.Destutter
import Mathlib.Data.Prod.Lex
import Mathlib.Order.OrderDual
/-!
# Searching entries

`search_database` and what it is made of. The maps of the database are walked in orders that are given: what comes out
is put in an order of its own at the end.
-/

namespace Falach

open Keepass

/-! ## Options and results -/

/-- Restricts a search to a part of the vault. -/
inductive SearchScope where
  | all
  | groupSubtree (target : Uuid)
  | tag (tag : String)
deriving DecidableEq

structure SearchOptions where
  query : String
  mode : SearchMode
  includeRecycled : Bool
  scope : SearchScope
  boost : List Uuid

inductive MatchedField where
  | title
  | username
  | url
  | notes
  | tags
deriving DecidableEq

structure SearchResult where
  uuid : Uuid
  score : Nat
  matchedFields : List MatchedField
  matchIndices : List (MatchedField × List UInt32)
deriving DecidableEq

def rankTitle : Nat := 8

def rankUsername : Nat := 4

def rankUrl : Nat := 2

def rankNotes : Nat := 1

def rankTags : Nat := 4

/-- What a search asks of the Unicode tables. -/
structure TextFunctions extends CharFunctions where
  lowercase : String → String

/-! ## The fields of an entry -/

/-- `entry.get(..).unwrap_or("")`. -/
def fieldText (e : Entry) (name : String) : String := ((e.fields.lookup name).map Value.get).getD ""

structure ScoredField where
  value : String
  field : MatchedField
  weight : Nat

/-- `scored_fields`, in the order in which `score_entry` goes through them too. -/
def scoredFields (e : Entry) : List ScoredField :=
  [⟨fieldText e titleField, .title, rankTitle⟩, ⟨fieldText e usernameField, .username, rankUsername⟩,
    ⟨fieldText e urlField, .url, rankUrl⟩, ⟨fieldText e notesField, .notes, rankNotes⟩,
    ⟨";".intercalate e.tags, .tags, rankTags⟩]

section

variable (fns : TextFunctions)

def scoreField (matcher : Matcher) (scored : Nat × List MatchedField) (s : ScoredField) : Nat × List MatchedField :=
  if matcher.isMatch fns.lowercase s.value then (scored.1 + s.weight, scored.2 ++ [s.field]) else scored

def scoreEntry (id : EntryId) (e : Entry) (matcher : Matcher) : Option SearchResult :=
  let scored := (scoredFields e).foldl (scoreField fns matcher) (0, [])
  if 0 < scored.1 then some ⟨id, scored.1, scored.2, []⟩ else none

/-! ## Terms -/

def i32Saturating (x : Int) : Int32 := Int32.ofIntClamp x

/-- An index out of bounds ends the search. -/
def orPanic {α : Type} : Except OutOfBounds α → Except Fault α
  | .ok a => .ok a
  | .error _ => .error .panic

/-- The best field of a term so far. -/
structure TermMatch where
  weighted : Int32
  field : MatchedField
  indices : List UInt32
deriving DecidableEq

def improveTerm (term : Text) (best : Option TermMatch) (s : ScoredField) : Except Fault (Option TermMatch) := do
  match ← orPanic (fuzzyMatch fns.toCharFunctions term s.value.toList) with
  | none => return best
  | some m =>
    let weighted := i32Saturating (m.score.toInt * s.weight)
    if best.all fun b => b.weighted < weighted then return some ⟨weighted, s.field, m.indices⟩ else return best

/-- The field that a term matches best. -/
def bestField (e : Entry) (term : Text) : Except Fault (Option TermMatch) :=
  (scoredFields e).foldlM (improveTerm fns term) none

/-- The indices join those that the field has already. -/
def addIndices (field : MatchedField) (indices : List UInt32) :
    List (MatchedField × List UInt32) → List (MatchedField × List UInt32)
  | [] => [(field, indices)]
  | slot :: rest => if slot.1 = field then (slot.1, slot.2 ++ indices) :: rest
      else slot :: addIndices field indices rest

/-- The loop of `score_entry_fuzzy` over the terms. -/
def scoreTerms (e : Entry) :
    List Text → Int32 → List (MatchedField × List UInt32) →
      Except Fault (Option (Int32 × List (MatchedField × List UInt32)))
  | [], total, found => return some (total, found)
  | term :: terms, total, found => do
    match ← bestField fns e term with
    | none => return none
    | some m =>
      scoreTerms e terms (i32Saturating (total.toInt + m.weighted.toInt)) (addIndices m.field m.indices found)

/-- `sort_unstable` and `dedup`. -/
def sortDedup (indices : List UInt32) : List UInt32 := (indices.insertionSort (· ≤ ·)).destutter (· ≠ ·)

def scoreEntryFuzzy (id : EntryId) (e : Entry) (terms : List Text) : Except Fault (Option SearchResult) := do
  match ← scoreTerms fns e terms 0 [] with
  | none => return none
  | some (total, found) =>
    let found := found.map fun slot => (slot.1, sortDedup slot.2)
    return some ⟨id, (max total.toInt 0).toNat, found.map Prod.fst, found⟩

end

/-! ## Scope -/

/-- `collect_group_ids`: `fuel` bounds how deep the groups are nested. -/
def collectGroupIds (ids : Enumeration Uuid) (db : Database) :
    (fuel : Nat) → Finset GroupId → GroupId → Except Fault (Finset GroupId)
  | 0, _, _ => .error .panic
  | fuel + 1, set, id => do
    let group ← expect (db.group id)
    (ids.list group.groups).foldlM (fun set child => collectGroupIds ids db fuel set child) (insert id set)

def collectSubtreeGroupIds (ids : Enumeration Uuid) (db : Database) (target : Uuid) : Except Fault (Finset GroupId) :=
  match (ids.list db.groups.keys).find? (· = target) with
  | some group => collectGroupIds ids db (db.groups.keys.card + 1) ∅ group
  | none => return ∅

/-- `group_contains_entry`. -/
def groupContainsEntry (ids : Enumeration Uuid) (db : Database) (entry : EntryId) :
    (fuel : Nat) → GroupId → Except Fault Bool
  | 0, _ => .error .panic
  | fuel + 1, id => do
    let group ← expect (db.group id)
    if entry ∈ group.entries then return true
    else (ids.list group.groups).anyM (groupContainsEntry ids db entry fuel)

def isEntryInRecycleBin (ids : Enumeration Uuid) (db : Database) (entry : EntryId) : Except Fault Bool :=
  match recycleBin db with
  | some bin => groupContainsEntry ids db entry (db.groups.keys.card + 1) bin
  | none => return false

section

variable (fns : TextFunctions) (ids : Enumeration Uuid) (db : Database)

/-- The closure `in_scope`, with the groups of the subtree and the tag that were got ready before. -/
def inScope (subtreeGroups : Option (Finset GroupId)) (tagNeedle : Option String) (e : Entry) : Except Fault Bool := do
  let inGroups ← match subtreeGroups with
    | none => pure true
    | some groups => do
      let _ ← expect (db.group e.parent)
      pure (decide (e.parent ∈ groups))
  return inGroups && tagNeedle.all fun tag => e.tags.any fun t => fns.lowercase t = tag

/-- What a search gets ready once: the groups of the subtree, or the tag in lower case. -/
def prepareScope (scope : SearchScope) : Except Fault (Entry → Except Fault Bool) := do
  let subtreeGroups ← match scope with
    | .groupSubtree target => (collectSubtreeGroupIds ids db target).map some
    | _ => pure none
  let tagNeedle := match scope with
    | .tag tag => some (fns.lowercase tag)
    | _ => none
  return inScope fns db subtreeGroups tagNeedle

/-- `!include_recycled && is_entry_in_recycle_bin(..)`. -/
def isCutOff (includeRecycled : Bool) (id : EntryId) : Except Fault Bool :=
  if includeRecycled then .ok false else isEntryInRecycleBin ids db id

/-- The start of every loop over the entries: the recycle-bin cut and the scope. -/
def keepScoped (includeRecycled : Bool) (isInScope : Entry → Except Fault Bool) (found : List (EntryId × Entry))
    (id : EntryId) : Except Fault (List (EntryId × Entry)) := do
  let e ← expect (db.entry id)
  if ← isCutOff ids db includeRecycled id then return found
  else if ← isInScope e then return found ++ [(id, e)]
  else return found

/-- The entries that pass, in the order of the map. -/
def scopedEntries (includeRecycled : Bool) (isInScope : Entry → Except Fault Bool) :
    Except Fault (List (EntryId × Entry)) :=
  (ids.list db.entries.keys).foldlM (keepScoped ids db includeRecycled isInScope) []

/-! ## The search -/

def browseHit (uuid : Uuid) : SearchResult := ⟨uuid, 0, [], []⟩

/-- The boosted entries that are there, each where it comes first in the list. -/
def boosted (present : List Uuid) (boost : List Uuid) : List Uuid :=
  boost.foldl (fun used uuid => if uuid ∈ present ∧ uuid ∉ used then used ++ [uuid] else used) []

def browseResults (includeRecycled : Bool) (isInScope : Entry → Except Fault Bool) (boost : List Uuid) :
    Except Fault (List SearchResult) := do
  let found ← scopedEntries ids db includeRecycled isInScope
  let entries := found.map fun p => (p.1, fieldText p.2 titleField)
  let used := boosted (entries.map Prod.fst) boost
  let rest := (entries.filter fun p => p.1 ∉ used).insertionSort fun p q =>
    toLex (fns.lowercase p.2, p.1) ≤ toLex (fns.lowercase q.2, q.1)
  return used.map browseHit ++ rest.map fun p => browseHit p.1

/-- The order of the results: scores downwards, then boosted before not boosted, then UUIDs. -/
def sortKey (boost : List Uuid) (r : SearchResult) : Natᵒᵈ ×ₗ Boolᵒᵈ ×ₗ Nat :=
  toLex (OrderDual.toDual r.score, toLex (OrderDual.toDual (decide (r.uuid ∈ boost)), r.uuid))

def searchDatabase (opts : SearchOptions) : Except Fault (List SearchResult) := do
  let isInScope ← prepareScope fns ids db opts.scope
  if opts.mode = .fuzzy ∧ Text.trim opts.query.toList = [] then
    browseResults fns ids db opts.includeRecycled isInScope opts.boost
  else if opts.query = "" then return []
  else
    let found ← scopedEntries ids db opts.includeRecycled isInScope
    let results ← match opts.mode with
      | .fuzzy =>
        let terms := (opts.query.toList.splitOnP Text.isWhitespace).filter (· ≠ [])
        found.mapM fun p => scoreEntryFuzzy fns p.1 p.2 terms
      | .substring | .wildcard =>
        let matcher := Matcher.new fns.lowercase opts.query opts.mode
        pure (found.map fun p => scoreEntry fns p.1 p.2 matcher)
    return (results.filterMap id).insertionSort fun l r => sortKey opts.boost l ≤ sortKey opts.boost r

end
end Falach
