import Falach.Keepass.Edit
/-!
# `Database::merge`

The vendored merge of one copy of a database (`source`) into another (`dest`), phase by phase in the order
`merge_groups` runs them. Nothing reads the log of events and warnings it also returns, so there is none here.
-/

namespace Keepass

/-! ## Divergence -/

/-- The version with its timestamps reset. -/
def Version.contentOnly (v : Version) : Version := { v with times := {} }

/-- `have_entries_diverged`: dissimilar, ignoring timestamps and history. -/
def haveEntriesDiverged (a b : Version) : Prop := a.contentOnly ≠ b.contentOnly

instance (a b : Version) : Decidable (haveEntriesDiverged a b) := inferInstanceAs (Decidable (_ ≠ _))

/-- The group with its timestamps, its children and its parent reset. -/
def Group.contentOnly (g : Group) : Group := { g with times := {}, entries := ∅, groups := ∅, parent := none }

/-- `have_groups_diverged`. -/
def haveGroupsDiverged (a b : Group) : Prop := a.contentOnly ≠ b.contentOnly

instance (a b : Group) : Decidable (haveGroupsDiverged a b) := inferInstanceAs (Decidable (_ ≠ _))

/-! ## Histories -/

/-- A version whose missing modification time counts as the epoch. -/
def Version.dated (v : Version) : Version :=
  { v with times := { v.times with lastModification := some (v.times.lastModification.getD Times.epoch) } }

def Version.time (v : Version) : NaiveDateTime := v.times.lastModification.getD Times.epoch

/-- The loop of `merge_history` up to the round that takes `d`, the newest version of the destination; `next` are
the rounds after it. -/
def takeDest (d : Version) (dest : List Version) (next : List Version → List Version) : List Version → List Version
  | [] => d :: dest
  | s :: source =>
    if d.time > s.time then d :: next (s :: source)
    else if s.time > d.time then s :: takeDest d dest next source
    else if haveEntriesDiverged d s then d :: s :: next source
    else d :: next source

/-- The two lists newest first, merged: the newer head goes first, and of two heads of one time both go if
they diverged and one if not. -/
def mergeNewestFirst : List Version → List Version → List Version
  | [], source => source
  | d :: dest, source => takeDest d dest (mergeNewestFirst dest) source

/-- A history as the merge takes it: dated, sorted by time without reordering equal times, and then read from
its end. -/
def newestFirst (history : List Version) : List Version :=
  ((history.map Version.dated).insertionSort fun a b => a.time ≤ b.time).reverse

/-- `merge_history`. -/
def mergeHistory (dest source : List Version) : List Version :=
  mergeNewestFirst (newestFirst dest) (newestFirst source)

/-- The time of an object's last change, as tombstones are compared with it. -/
def Times.lastUpdate (t : Times) : Option NaiveDateTime := t.lastModification <|> t.locationChanged

namespace Database

/-! ## Groups only in the source -/

/-- `get_last_update`: of the group, its entries and its subgroups. -/
def getLastUpdate (env : Env) (db : Database) (g : Group) : Except Fault (Option NaiveDateTime) := do
  let entries ← ((env.ids .childEntries).list g.entries).mapM fun id => expect (db.entry id)
  let groups ← ((env.ids .childGroups).list g.groups).mapM fun id => expect (db.group id)
  let times := entries.map (·.times.lastUpdate) ++ groups.map (·.times.lastUpdate)
  return (times ++ [g.times.lastUpdate]).reduceOption.max?

/-- Whether a tombstone keeps an object last changed at `update` from being added again. -/
def keptOut (deletion update : Option NaiveDateTime) : Bool :=
  match deletion, update with
  | some deletion, some update => deletion ≥ update
  | some _, none => true
  | none, some _ => false
  | none, none => true

/-- Whether the source group `id`, absent in `dest`, goes to `groups_to_add`. -/
def wantsGroup (env : Env) (dest source : Database) (id : GroupId) : Except Fault Bool := do
  let g ← expect (source.group id)
  match dest.deletedObjects.lookup id with
  | none => return true
  | some deletion => return !keptOut deletion (← getLastUpdate env source g)

/-- The new group in `dest` for the source group `g`. -/
def copyGroup (g : Group) (parent : GroupId) : Group :=
  { g with parent := some parent, groups := ∅, entries := ∅ }

/-- The loop that adds `groups_to_add`, parents first. The source group on top of the stack is added under
its parent, or its parent goes on top of it. The order matters only until the set is used up. -/
def addGroups (env : Env) (source : Database) : Nat → Finset GroupId → List GroupId → Database → Except Fault Database
  | 0, _, _, _ => .error .panic
  | n + 1, toAdd, [], dest =>
    match (env.ids .groupsToAdd).list toAdd with
    | [] => return dest
    | next :: _ => addGroups env source n (toAdd.erase next) [next] dest
  | n + 1, toAdd, id :: stack, dest => do
    let g ← expect (source.group id)
    let parent ← expect g.parent
    let _ ← expect (source.group parent)
    if parent ∈ dest.groups then
      let dest ← dest.addGroupWithId parent id (copyGroup g parent)
      addGroups env source n toAdd stack dest
    else
      addGroups env source n (toAdd.erase parent) (parent :: id :: stack) dest

/-- Add the groups that exist only in the source. Every group is taken from the set once and added once. -/
def addMissingGroups (env : Env) (source dest : Database) : Except Fault Database := do
  let missing := source.groups.keys \ dest.groups.keys
  let wanted ← ((env.ids .groupsToAdd).list missing).filterM (wantsGroup env dest source)
  addGroups env source (3 * source.groups.keys.card + 1) wanted.toFinset [] dest

/-! ## Groups only in the destination -/

/-- Whether a tombstone is older than the object's last change. -/
def outlived (deletion update : Option NaiveDateTime) : Bool :=
  match deletion, update with
  | some deletion, some update => deletion < update
  | _, _ => false

/-- One round of the loop that queues deletions: the tombstone is copied now, the group removed later. -/
def queueDeletion (env : Env) (source : Database) (st : Database × List GroupId) (id : GroupId) :
    Except Fault (Database × List GroupId) := do
  let (dest, toDelete) := st
  let g ← expect (dest.group id)
  match source.deletedObjects.lookup id with
  | none => return (dest, toDelete)
  | some deletion =>
    if outlived deletion (← getLastUpdate env dest g) then return (dest, toDelete)
    return ({ dest with deletedObjects := dest.deletedObjects.insert id deletion }, toDelete ++ [id])

/-! ## Entries -/

/-- One round for an entry only in the source: add it, unless a tombstone or a missing parent group keeps it out. -/
def addEntryFrom (source dest : Database) (id : EntryId) : Except Fault Database := do
  let s ← expect (source.entry id)
  let keep := match dest.deletedObjects.lookup id with
    | some deletion => keptOut deletion s.times.lastUpdate
    | none => false
  if keep then return dest
  let _ ← expect (source.group s.parent)
  if s.parent ∈ dest.groups then dest.addEntryWithId s.parent id s
  else return dest

/-- One round for an entry only in the destination: remove it, if the source has a tombstone it has not outlived. -/
def removeEntryFrom (env : Env) (source dest : Database) (id : EntryId) : Except Fault Database := do
  let d ← expect (dest.entry id)
  match source.deletedObjects.lookup id with
  | none => return dest
  | some deletion =>
    if outlived deletion d.times.lastUpdate then return dest
    let dest ← dest.removeEntry env id
    return { dest with deletedObjects := dest.deletedObjects.insert id deletion }

/-- Move the destination entry to the parent it has in the source, if the source moved it later. -/
def followMove (source dest : Database) (d s : Entry) (id : EntryId) : Except Fault Database := do
  let _ ← expect (dest.group d.parent)
  let _ ← expect (source.group s.parent)
  if d.parent ≠ s.parent then
    match s.times.locationChanged, d.times.locationChanged with
    | some slc, some dlc =>
      if slc > dlc then
        match ← dest.moveEntryTo id s.parent with
        | some dest => return dest.modifyEntry id fun e =>
            { e with times := { e.times with locationChanged := some slc } }
        | none => return dest
      else return dest
    | _, _ => return dest
  else return dest

/-- The fields of `d` that a newer source version `s` replaces. The attachments are not among them. -/
def replaceFields (d : Entry) (s : Version) : Entry :=
  { d with
    times := { d.times with lastModification := s.times.lastModification }
    fields := s.fields
    autotype := s.autotype
    tags := s.tags
    customData := s.customData
    icon := s.icon
    foregroundColor := s.foregroundColor
    backgroundColor := s.backgroundColor
    overrideUrl := s.overrideUrl
    qualityCheck := s.qualityCheck }

/-- The history of a losing destination entry `d`, itself added if it diverged from the newest version. -/
def keepLoser (d : Entry) (merged : List Version) : List Version :=
  match merged with
  | [] => merged
  | newest :: _ => if haveEntriesDiverged d.toVersion newest then d.toVersion :: merged else merged

/-- The entry `d` (already moved) after a merge with `s`, their modification times being `dlm` and `slm` and
different. -/
def mergedEntry (d s : Entry) (dlm slm : NaiveDateTime) : Entry :=
  let history := mergeHistory (d.history.getD []) (s.history.getD [])
  let location := d.times.locationChanged <|> s.times.locationChanged
  let (current, history) :=
    if slm > dlm then (replaceFields d s.toVersion, keepLoser d history) else (d, history)
  { current with
    history := some history
    times := { current.times with locationChanged := location } }

/-- One round for an entry on both sides. -/
def mergeEntryInBoth (env : Env) (source dest : Database) (id : EntryId) : Except Fault Database := do
  let d ← expect (dest.entry id)
  let s ← expect (source.entry id)
  let dest ← followMove source dest d s id
  let d ← expect (dest.entry id)
  let slm := s.times.lastModification.getD Times.epoch
  let dlm := d.times.lastModification.getD (env.now .entriesInBoth id)
  if dlm = slm then
    if haveEntriesDiverged d.toVersion s.toVersion then .error (.merge (.entryModificationTimeNotUpdated id) dest)
    else return dest
  else return dest.modifyEntry id fun d => mergedEntry d s dlm slm

/-- `merge_entries`. -/
def mergeEntries (env : Env) (source dest : Database) : Except Fault Database := do
  let destEntries := dest.entries.keys
  let sourceEntries := source.entries.keys
  let dest ← ((env.ids .entriesToAdd).list (sourceEntries \ destEntries)).foldlM (addEntryFrom source) dest
  let dest ← ((env.ids .entriesToDelete).list (destEntries \ sourceEntries)).foldlM (removeEntryFrom env source) dest
  ((env.ids .entriesInBoth).list (destEntries ∩ sourceEntries)).foldlM (mergeEntryInBoth env source) dest

/-! ## Group deletions and updates -/

/-- The queued deletions, last queued first. -/
def deleteGroups (env : Env) (toDelete : List GroupId) (dest : Database) : Except Fault Database :=
  toDelete.reverse.foldlM (fun dest id =>
    if id ∈ dest.groups then dest.removeGroup env (dest.groups.keys.card + 1) id else return dest) dest

/-- `Result::map_err(MergeError::MoveGroupError)`. -/
def orMergeError (dest : Database) : Except MoveGroupError Database → Except Fault Database
  | .ok db => .ok db
  | .error e => .error (.merge (.moveGroupError e) dest)

/-- `parent().map(|p| p.id())`. -/
def parentId (db : Database) (g : Group) : Except Fault (Option GroupId) :=
  match g.parent with
  | none => return none
  | some p => do
    let _ ← expect (db.group p)
    return some p

/-- A group moved later in the source goes to the root now and to its new parent at the end, so that two groups
that swapped places cannot make a cycle. `none`: the rest of the round is skipped. -/
def followGroupMove (source dest : Database) (d s : Group) (id : GroupId) :
    Except Fault (Option (Database × Option GroupId)) := do
  let destParent ← dest.parentId d
  let sourceParent ← source.parentId s
  if destParent ≠ sourceParent then
    match d.times.locationChanged, s.times.locationChanged with
    | some dlc, some slc =>
      if slc > dlc then
        match sourceParent with
        | none => return none
        | some parent =>
          if parent ∉ dest.groups then return none
          else
            let dest ← orMergeError dest (← dest.moveGroupTo id dest.root)
            let dest := dest.modifyGroup id fun g => { g with times := { g.times with locationChanged := some slc } }
            return some (dest, some parent)
      else return some (dest, none)
    | _, _ => return some (dest, none)
  else return some (dest, none)

/-- The destination group with what a newer source group replaces. -/
def replaceGroup (d s : Group) : Group :=
  { d with
    name := s.name
    notes := s.notes
    icon := s.icon
    customData := s.customData
    times := { d.times with lastModification := s.times.lastModification <|> d.times.lastModification }
    isExpanded := s.isExpanded
    defaultAutotypeSequence := s.defaultAutotypeSequence
    enableAutotype := s.enableAutotype
    enableSearching := s.enableSearching
    lastTopVisibleEntry := s.lastTopVisibleEntry }

/-- One round for a group on both sides; the moves to make at the end are collected. -/
def mergeGroupInBoth (env : Env) (source : Database) (st : Database × List (GroupId × GroupId)) (id : GroupId) :
    Except Fault (Database × List (GroupId × GroupId)) := do
  let (dest, moves) := st
  let d ← expect (dest.group id)
  let s ← expect (source.group id)
  match ← followGroupMove source dest d s id with
  | none => return (dest, moves)
  | some (dest, move) =>
    let moves := moves ++ (move.map fun parent => (id, parent)).toList
    let d ← expect (dest.group id)
    let dlm := d.times.lastModification.getD (env.now .groupsInBoth id)
    let slm := s.times.lastModification.getD Times.epoch
    if dlm = slm then
      if haveGroupsDiverged d s then .error (.merge (.groupModificationTimeNotUpdated id) dest)
      else return (dest, moves)
    else if dlm > slm then return (dest, moves)
    else return (dest.modifyGroup id fun d => replaceGroup d s, moves)

/-- One queued move. -/
def runMove (dest : Database) (move : GroupId × GroupId) : Except Fault Database := do
  orMergeError dest (← dest.moveGroupTo move.1 move.2)

/-- `merge_groups`, which is all of `Database::merge`. -/
def merge (env : Env) (dest source : Database) : Except Fault Database := do
  let destGroups := dest.groups.keys
  let sourceGroups := source.groups.keys
  let dest ← addMissingGroups env source dest
  let (dest, toDelete) ← ((env.ids .groupsToDelete).list (destGroups \ sourceGroups)).foldlM
    (queueDeletion env source) (dest, [])
  let dest ← mergeEntries env source dest
  let dest ← deleteGroups env toDelete dest
  let _ ← expect (dest.group dest.root)
  let (dest, moves) ← ((env.ids .groupsInBoth).list (dest.groups.keys ∩ sourceGroups)).foldlM
    (mergeGroupInBoth env source) (dest, [])
  moves.foldlM runMove dest

end Database

end Keepass
