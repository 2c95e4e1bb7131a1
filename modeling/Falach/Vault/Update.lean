import Falach.Vault.HistoryCap
/-!
# Updating an entry

`Vault::update_entry` as it goes: the version before the edit is put into the history and the history cut, then the
closure edits the entry through its view, and what an error leaves behind is put back from the snapshot.
-/

namespace Falach

open Keepass Database

/-- A closure that acts through `EntryViewMut`: it reads the entry, calls the setters, each with its own reading of the
clock, and succeeds or fails. -/
inductive EditClosure where
  | returns (result : Except VaultError Unit)
  | read (next : Version → EditClosure)
  | call (edit : ViewEdit) (now : NaiveDateTime) (next : EditClosure)

/-- A call of the view, `touch` included. -/
def ViewEdit.on (edit : ViewEdit) (now : NaiveDateTime) (v : Version) : Version :=
  match edit.apply v with
  | none => v
  | some (fields, tags) => { v with fields := fields, tags := tags, times := {
      v.times with lastModification := some now } }

namespace EditClosure

/-- The closure on the entry `id` of the database: every read and every call looks the entry up again. -/
def run (id : EntryId) (db : Database) : EditClosure → Except Fault CallOutcome
  | .returns result => return (result, db)
  | .read next => do
    let e ← expect (db.entry id)
    run id db (next e.toVersion)
  | .call edit now next => do
    let _ ← expect (db.entry id)
    run id (db.modifyEntry id fun e => { e with toVersion := edit.on now e.toVersion }) next

/-- What the closure returns, and what it makes of a version. -/
def eval (v : Version) : EditClosure → Except VaultError Unit × Version
  | .returns result => (result, v)
  | .read next => (next v).eval v
  | .call edit now next => next.eval (edit.on now v)

/-- The fields and tags it makes, unless it fails. -/
def content (f : EditClosure) (v : Version) : Except VaultError (HashMap String (Value String) × List String) :=
  (f.eval v).1.map fun _ => ((f.eval v).2.fields, (f.eval v).2.tags)

end EditClosure

namespace Vault

/-- `Vault::update_entry`, with the database it leaves. -/
def updateEntry (db : Database) (uuid : Uuid) (f : EditClosure) (now : NaiveDateTime) : Except Fault CallOutcome :=
  match findEntryId db uuid with
  | .error err => return (.error err, db)
  | .ok id =>
    match db.entry id with
    | none => return (.error (.entryNotFound uuid), db)
    | some snapshot => do
      let (result, db) ← f.run id (db.modifyEntry id (recordHistory (historyCap db)))
      match db.entry id, result with
      | none, _ => return (.error (.entryNotFound uuid), db)
      | some _, .ok () =>
        return (.ok (), db.modifyEntry id fun e => { e with times := { e.times with lastModification := some now } })
      | some _, .error err => return (.error err, db.modifyEntry id fun _ => snapshot)

end Vault

/-- The history after an update: the version before it in front of the old history, cut to the cap. -/
def HistoryCap.recorded (before : Version) (history : Option (List Version)) : HistoryCap → Option (List Version)
  | .disabled => history
  | .unlimited => some (before :: history.getD [])
  | .max n => some ((before :: history.getD []).take n)

/-- The entry after an update that made `made` of its version. -/
def Entry.updated (cap : HistoryCap) (made : Version) (now : NaiveDateTime) (e : Entry) : Entry where
  toVersion := { made with times := { made.times with lastModification := some now } }
  history := cap.recorded e.toVersion e.history

/-- Only the entry `id` may differ. -/
structure OnlyEntry (id : EntryId) (db db' : Database) : Prop where
  rest : db' = { db with entries := db'.entries }
  others : ∀ i, i ≠ id → db'.entry i = db.entry i

variable {db db' : Database} {id : EntryId} {e : Entry} {cap : HistoryCap} {now : NaiveDateTime}

/-! ## Rewriting one entry -/

theorem OnlyEntry.modifyEntry (db : Database) (id : EntryId) (g : Entry → Entry) :
    OnlyEntry id db (db.modifyEntry id g) where
  rest := rfl
  others i hi := by rw [entry_modifyEntry, if_neg hi]

/-- Two rewrites of one entry are one. -/
theorem modifyEntry_modifyEntry (g g' : Entry → Entry) :
    (db.modifyEntry id g).modifyEntry id g' = db.modifyEntry id fun e => g' (g e) := by
  have entries : ((db.entries.modify id g).modify id g') = db.entries.modify id fun e => g' (g e) := by
    refine Finmap.ext_lookup fun i => ?_
    simp only [Finmap.lookup_modify]
    split
    · simp only [if_true, Option.map_map]; rfl
    · rfl
  unfold Database.modifyEntry
  rw [entries]

/-- A rewrite is told by what it makes of the entry that is there. -/
theorem modifyEntry_congr {g g' : Entry → Entry} (he : db.entry id = some e) (h : g e = g' e) :
    db.modifyEntry id g = db.modifyEntry id g' := by
  have entries : db.entries.modify id g = db.entries.modify id g' := by
    refine Finmap.ext_lookup fun i => ?_
    have hlookup : db.entries.lookup id = some e := he
    simp only [Finmap.lookup_modify, hlookup, Option.map_some, h]
  unfold Database.modifyEntry
  rw [entries]

/-- Putting the entry back that was there changes nothing. -/
theorem modifyEntry_same (he : db.entry id = some e) : (db.modifyEntry id fun _ => e) = db := by
  have entries : (db.entries.modify id fun _ => e) = db.entries := by
    refine Finmap.ext_lookup fun i => ?_
    have hlookup : db.entries.lookup id = some e := he
    rw [Finmap.lookup_modify]
    split
    · rename_i hi
      rw [hi, hlookup, Option.map_some]
    · rfl
  unfold Database.modifyEntry
  rw [entries]

/-! ## The closure -/

/-- A setter writes the fields and the tags, and the time of the last modification. -/
theorem ViewEdit.on_rest (edit : ViewEdit) (now : NaiveDateTime) (v : Version) :
    ∃ fields tags last, edit.on now v =
      { v with fields := fields, tags := tags, times := { v.times with lastModification := last } } := by
  unfold ViewEdit.on
  split
  · exact ⟨v.fields, v.tags, v.times.lastModification, rfl⟩
  · exact ⟨_, _, _, rfl⟩

theorem EditClosure.eval_rest (f : EditClosure) (v : Version) :
    ∃ fields tags last, (f.eval v).2 =
      { v with fields := fields, tags := tags, times := { v.times with lastModification := last } } := by
  induction f generalizing v with
  | returns result => exact ⟨v.fields, v.tags, v.times.lastModification, rfl⟩
  | read next ih => exact ih v v
  | call edit now next ih =>
    obtain ⟨fields, tags, last, hon⟩ := edit.on_rest now v
    obtain ⟨fields', tags', last', heval⟩ := ih (edit.on now v)
    refine ⟨fields', tags', last', ?_⟩
    rw [EditClosure.eval, heval, hon]

/-- On an entry that is there the closure runs to its end, and changes the version of this entry only. -/
theorem EditClosure.run_eq (f : EditClosure) (he : db.entry id = some e) :
    f.run id db = .ok ((f.eval e.toVersion).1,
      db.modifyEntry id fun _ => { e with toVersion := (f.eval e.toVersion).2 }) := by
  induction f generalizing db e with
  | returns result =>
    rw [EditClosure.run, EditClosure.eval, modifyEntry_same he]
    rfl
  | read next ih =>
    rw [EditClosure.run, he]
    exact ih e.toVersion he
  | call edit now next ih =>
    have hnext : (db.modifyEntry id fun e => { e with toVersion := edit.on now e.toVersion }).entry id =
        some { e with toVersion := edit.on now e.toVersion } := by
      rw [entry_modifyEntry, if_pos rfl, he, Option.map_some]
    rw [EditClosure.run, he]
    refine (ih hnext).trans ?_
    rw [modifyEntry_modifyEntry]
    rfl

/-! ## The update -/

theorem recordHistory_eq (cap : HistoryCap) (e : Entry) :
    recordHistory cap e = { e with history := cap.recorded e.toVersion e.history } := by
  cases cap with
  | disabled => rfl
  | unlimited => rfl
  | max n =>
    change pruneHistory (addHistory e e.toVersion) n = _
    unfold pruneHistory addHistory HistoryCap.recorded
    dsimp only
    split
    · rfl
    · rename_i hshort
      rw [List.take_of_length_le (Nat.le_of_not_lt hshort)]

/-- The steps of an update, taken together. -/
theorem Vault.updateEntry_eq (f : EditClosure) (he : db.entry id = some e) :
    Vault.updateEntry db id f now = .ok (match (f.eval e.toVersion).1 with
      | .ok () => (.ok (), db.modifyEntry id (Entry.updated (historyCap db) (f.eval e.toVersion).2 now))
      | .error err => (.error err, db)) := by
  have hfind : findEntryId db id = .ok id := if_pos ((mem_entries db).2 ⟨e, he⟩)
  set recorded : Database := db.modifyEntry id (recordHistory (historyCap db)) with hrecorded
  have hentry : recorded.entry id = some (recordHistory (historyCap db) e) := by
    rw [hrecorded, entry_modifyEntry, if_pos rfl, he, Option.map_some]
  have hversion : (recordHistory (historyCap db) e).toVersion = e.toVersion := by rw [recordHistory_eq]
  have hrun := f.run_eq hentry
  rw [hversion] at hrun
  -- the database that the closure leaves
  set edited : Database := recorded.modifyEntry id fun _ =>
    { recordHistory (historyCap db) e with toVersion := (f.eval e.toVersion).2 } with hedited
  have hleft : edited.entry id = some { recordHistory (historyCap db) e with toVersion := (f.eval e.toVersion).2 } := by
    rw [hedited, entry_modifyEntry, if_pos rfl, hentry, Option.map_some]
  simp only [Vault.updateEntry, hfind, he, ← hrecorded, hrun, bind, Except.bind, hleft]
  cases (f.eval e.toVersion).1 with
  | error err =>
    have back : (edited.modifyEntry id fun _ => e) = db := by
      rw [hedited, modifyEntry_modifyEntry, hrecorded, modifyEntry_modifyEntry, modifyEntry_same he]
    simp only [back, pure, Except.pure]
  | ok u =>
    have stamped : (edited.modifyEntry id fun e => { e with times := { e.times with lastModification := some now } }) =
        db.modifyEntry id (Entry.updated (historyCap db) (f.eval e.toVersion).2 now) := by
      rw [hedited, modifyEntry_modifyEntry, hrecorded, modifyEntry_modifyEntry]
      refine modifyEntry_congr he ?_
      rw [recordHistory_eq]
      rfl
    simp only [stamped, pure, Except.pure]

/-- The update of this module and the one of the calls of a vault are the same. -/
theorem Vault.updateEntry_leaves (db : Database) (uuid : Uuid) (f : EditClosure) (now : NaiveDateTime) :
    Vault.updateEntry db uuid f now = .ok (leaves db (Falach.updateEntry db uuid f.content now)) := by
  by_cases hmem : uuid ∈ db.entries
  · obtain ⟨e, he⟩ := (mem_entries db).1 hmem
    have hfind : findEntryId db uuid = .ok uuid := if_pos hmem
    rw [Vault.updateEntry_eq f he]
    simp only [Falach.updateEntry, hfind, he, EditClosure.content, bind, Except.bind]
    obtain ⟨fields, tags, last, hmade⟩ := f.eval_rest e.toVersion
    cases (f.eval e.toVersion).1 with
    | error err => rfl
    | ok u =>
      have same : db.modifyEntry uuid (Entry.updated (historyCap db) (f.eval e.toVersion).2 now) =
          db.modifyEntry uuid fun e => edited fields tags now (recordHistory (historyCap db) e) := by
        refine modifyEntry_congr he ?_
        rw [hmade, recordHistory_eq]
        rfl
      rw [hmade] at same
      simp only [Except.map, leaves, pure, Except.pure, hmade, same]
  · have hfind : findEntryId db uuid = .error (.entryNotFound uuid) := if_neg hmem
    simp only [Vault.updateEntry, Falach.updateEntry, hfind, bind, Except.bind]
    rfl

/-- What an update that succeeded has made of the database. -/
structure Updated (db : Database) (uuid : Uuid) (f : EditClosure) (now : NaiveDateTime) (db' : Database) : Prop where
  entry : ∃ e e', db.entry uuid = some e ∧ db'.entry uuid = some e' ∧ (f.eval e.toVersion).1 = .ok () ∧
    e'.toVersion = { (f.eval e.toVersion).2 with
      times := { (f.eval e.toVersion).2.times with lastModification := some now } } ∧
    e'.history = (historyCap db).recorded e.toVersion e.history ∧
    e'.id = e.id ∧ e'.parent = e.parent ∧ e'.attachments = e.attachments
  only : OnlyEntry uuid db db'

/-- What an update returns: an error if the entry is not there, else what the closure returns. -/
def EditClosure.resultOn (f : EditClosure) (db : Database) (uuid : Uuid) : Except VaultError Unit :=
  match db.entry uuid with
  | none => .error (.entryNotFound uuid)
  | some e => (f.eval e.toVersion).1

/-- An update that fails leaves the database as it was; one that succeeds makes of the entry what its closure makes of
it, with the version before it in the history, and touches nothing else. -/
theorem update_is_atomic (db : Database) (uuid : Uuid) (f : EditClosure) (now : NaiveDateTime) :
    ∃ db', Vault.updateEntry db uuid f now = .ok (f.resultOn db uuid, db') ∧
      (∀ err, f.resultOn db uuid = .error err → db' = db) ∧
      (f.resultOn db uuid = .ok () → Updated db uuid f now db') := by
  cases he : db.entry uuid with
  | none =>
    have hresult : f.resultOn db uuid = .error (.entryNotFound uuid) := by simp only [EditClosure.resultOn, he]
    have habsent : uuid ∉ db.entries := fun hmem => by
      obtain ⟨e, he'⟩ := (mem_entries db).1 hmem
      rw [he] at he'
      cases he'
    refine ⟨db, ?_, fun _ _ => rfl, fun h => ?_⟩
    · have hfind : findEntryId db uuid = .error (.entryNotFound uuid) := if_neg habsent
      simp only [Vault.updateEntry, hfind, hresult]
      rfl
    · rw [hresult] at h
      cases h
  | some e =>
    have hresult : f.resultOn db uuid = (f.eval e.toVersion).1 := by simp only [EditClosure.resultOn, he]
    rw [Vault.updateEntry_eq f he, hresult]
    cases hf : (f.eval e.toVersion).1 with
    | error err => exact ⟨db, rfl, fun _ _ => rfl, fun h => by cases h⟩
    | ok u =>
      refine ⟨_, rfl, fun _ h => (by cases h), fun _ => ⟨?_, OnlyEntry.modifyEntry db uuid _⟩⟩
      obtain ⟨fields, tags, last, hmade⟩ := f.eval_rest e.toVersion
      refine ⟨e, Entry.updated (historyCap db) (f.eval e.toVersion).2 now e, he, ?_, hf, rfl, rfl, ?_, ?_, ?_⟩
      · rw [entry_modifyEntry, if_pos rfl, he, Option.map_some]
      · rw [Entry.updated, hmade]
      · rw [Entry.updated, hmade]
      · rw [Entry.updated, hmade]

end Falach
