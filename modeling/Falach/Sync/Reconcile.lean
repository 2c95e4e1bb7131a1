import Falach.Keepass.Merge
/-!
# `merge::reconcile`

The adapter around the vendored merge: the backfill of lost versions and the two attachment passes.
-/

namespace Falach

open Keepass

/-- `EntryDelta`: the UUIDs of the entries the merge added, removed and modified. -/
structure EntryDelta where
  added : List Uuid := []
  removed : List Uuid := []
  modified : List Uuid := []
deriving DecidableEq

namespace EntryDelta

def isEmpty (d : EntryDelta) : Bool := d.added.isEmpty && d.removed.isEmpty && d.modified.isEmpty

end EntryDelta

/-! ## Walking the tree -/

/-- `walk`: the entries of a group, then those of its subgroups; `n` bounds the depth of the recursion. -/
def walk (env : Env) (site : Site) (db : Database) : Nat → GroupId → Except Fault (List Entry)
  | 0, _ => .error .panic
  | n + 1, id => do
    let g ← expect (db.group id)
    let entries ← ((env.ids site).list g.entries).mapM fun e => expect (db.entry e)
    let below ← ((env.ids site).list g.groups).mapM (walk env site db n)
    return entries ++ below.flatten

/-- `collect_live_entries`. -/
def collectLiveEntries (env : Env) (site : Site) (db : Database) : Except Fault (List Entry) :=
  walk env site db (db.groups.keys.card + 1) db.root

/-- `entry_times`. -/
def entryTimes (env : Env) (site : Site) (db : Database) : Except Fault (HashMap Uuid (Option NaiveDateTime)) := do
  let entries ← collectLiveEntries env site db
  return entries.foldl (fun out e => out.insert e.id e.times.lastModification) ∅

/-- `delta_between`. The maps are ordered maps in the code, so the lists are sorted. -/
def deltaBetween (before after : HashMap Uuid (Option NaiveDateTime)) : EntryDelta where
  added := (Enumeration.sorted.list after.keys).filter fun id => before.lookup id = none
  modified := (Enumeration.sorted.list after.keys).filter fun id =>
    id ∈ before ∧ before.lookup id ≠ after.lookup id
  removed := (Enumeration.sorted.list before.keys).filter fun id => id ∉ after

/-! ## Backfill -/

/-- `history_has_version`. -/
def historyHasVersion (history : Option (List Version)) (candidate : Version) : Bool :=
  match history with
  | none => false
  | some history => history.any fun past =>
      past.times.lastModification = candidate.times.lastModification ∧ past.contentOnly = candidate.contentOnly

/-- One round of `backfill_lost_versions`. `content_diverged` compares what `have_entries_diverged` does. -/
def backfill (db : Database) (pre : Entry) : Database :=
  match db.entry pre.id with
  | none => db
  | some merged =>
    if haveEntriesDiverged merged.toVersion pre.toVersion ∧ historyHasVersion merged.history pre.toVersion = false then
      db.modifyEntry pre.id fun e => { e with history := some (pre.toVersion :: e.history.getD []) }
    else db

/-- `backfill_lost_versions`. -/
def backfillLostVersions (db : Database) (preEntries : List Entry) : Database := preEntries.foldl backfill db

/-! ## Attachments -/

/-- `attachments_named`, with the data; each attachment must be in the pool. -/
def attachmentsNamed (env : Env) (site : Site) (db : Database) (e : Entry) :
    Except Fault (List (String × Value Bytes)) :=
  ((env.names site e.id).list e.attachments.keys).mapM fun name => do
    let att ← expect (e.attachments.lookup name)
    let a ← expect (db.attachments.lookup att)
    return (name, a.data)

/-- `max(now, lm + 1s)`. -/
def advance (now : NaiveDateTime) (lastModification : Option NaiveDateTime) : NaiveDateTime :=
  match lastModification with
  | some lm => if lm + 1 > now then lm + 1 else now
  | none => now

/-- The entry's modification time advanced, as both attachment passes do after a change. -/
def bump (db : Database) (id : EntryId) (now : NaiveDateTime) : Database :=
  db.modifyEntry id fun e =>
    { e with times := { e.times with lastModification := some (advance now e.times.lastModification) } }

/-- Add attachments to an entry one by one. -/
def addAll (db : Database) (id : EntryId) (attachments : List (String × Value Bytes)) : Except Fault Database :=
  attachments.foldlM (fun db (name, data) => db.addAttachment id name data) db

/-- One round of `repair_added_entry_attachments`. -/
def repairAdded (env : Env) (remote : Database) (localPre : List Entry) (db : Database) (pre : Entry) :
    Except Fault Database :=
  if pre.id ∈ localPre.map (·.id) then return db
  else match remote.entry pre.id with
    | none => return db
    | some remoteRef => do
      let attachments ← attachmentsNamed env .repairAdded remote remoteRef
      if attachments = [] then return db
      else if pre.id ∉ db.entries then return db
      else
        let db ← addAll db pre.id attachments
        return bump db pre.id (env.now .repairAdded pre.id)

/-- `repair_added_entry_attachments`. -/
def repairAddedEntryAttachments (env : Env) (remote : Database) (localPre remotePre : List Entry) (db : Database) :
    Except Fault Database :=
  remotePre.foldlM (repairAdded env remote localPre) db

/-- The named attachment bytes, as an ordered map. -/
def bytesByName (attachments : List (String × Value Bytes)) : HashMap String Bytes :=
  attachments.foldl (fun m x => m.insert x.1 x.2.get) ∅

/-- `<=` of `Option<NaiveDateTime>`: a missing time is before every other. -/
def timeLe : Option NaiveDateTime → Option NaiveDateTime → Bool
  | none, _ => true
  | some _, none => false
  | some a, some b => a ≤ b

/-- `local_pre_lm.get(&uuid)`: of two entries with one UUID the last one counts. -/
def preLastModification (localPre : List Entry) : HashMap Uuid (Option NaiveDateTime) :=
  localPre.foldl (fun m e => m.insert e.id e.times.lastModification) ∅

/-- The attachments of entry `id` made those of `remoteRef`: names `remote` lacks go, the others are added. -/
def adoptAttachments (env : Env) (remote : Database) (remoteRef mergedRef : Entry) (db : Database) (id : EntryId) :
    Except Fault Database := do
  let wanted ← attachmentsNamed env .propagateBothSides remote remoteRef
  let held ← attachmentsNamed env .propagateBothSides db mergedRef
  let desired := bytesByName wanted
  let current := bytesByName held
  if desired = current then return db
  else
    let toRemove := (Enumeration.sorted.list current.keys).filter fun name => name ∉ desired
    let db ← toRemove.foldlM (fun db name => db.removeAttachmentByName id name) db
    let db ← addAll db id wanted
    return bump db id (env.now .propagateBothSides id)

/-- One round of `propagate_both_side_attachments`. -/
def propagate (env : Env) (remote : Database) (localPre : List Entry) (db : Database) (pre : Entry) :
    Except Fault Database :=
  match (preLastModification localPre).lookup pre.id with
  | none => return db
  | some localLm =>
    if timeLe pre.times.lastModification localLm then return db
    else match remote.entry pre.id, db.entry pre.id with
      | some remoteRef, some mergedRef => adoptAttachments env remote remoteRef mergedRef db pre.id
      | _, _ => return db

/-- `propagate_both_side_attachments`. -/
def propagateBothSideAttachments (env : Env) (remote : Database) (localPre remotePre : List Entry) (db : Database) :
    Except Fault Database :=
  remotePre.foldlM (propagate env remote localPre) db

/-! ## The whole pass -/

/-- `reconcile`: the merged `local` and what changed in it. -/
def reconcile (env : Env) (localDb remote : Database) : Except Fault (Database × EntryDelta) := do
  let before ← entryTimes env .walkBefore localDb
  let localPre ← collectLiveEntries env .walkLocal localDb
  let remotePre ← collectLiveEntries env .walkRemote remote
  let db ← localDb.merge env remote
  let db := backfillLostVersions db localPre
  let db := backfillLostVersions db remotePre
  let db ← repairAddedEntryAttachments env remote localPre remotePre db
  let db ← propagateBothSideAttachments env remote localPre remotePre db
  let after ← entryTimes env .walkAfter db
  return (db, deltaBetween before after)

end Falach
