import Falach.Core.Error
import Falach.Keepass.Histories
import Falach.Keepass.Outcome
/-!
# Entry operations of an unlocked vault

`update_entry`, `delete_entry`, `move_entry` and `purge_entry`, and what a copy of a database can become by the
first three while its recycle bin is on. `now` are the readings of the clock in a call, in their order.
-/

namespace Falach

open Keepass Database

/-! ## History -/

def defaultMaxHistoryPerEntry : Nat := 10

/-- History policy decoded from `Meta/HistoryMaxItems`. -/
inductive HistoryCap where
  | unlimited
  | disabled
  | max (n : Nat)
deriving DecidableEq

/-- `Vault::history_cap`. -/
def historyCap (db : Database) : HistoryCap :=
  match db.meta.historyMaxItems with
  | none => .max defaultMaxHistoryPerEntry
  | some value => if value < 0 then .unlimited else if value = 0 then .disabled else .max value.toNat

/-- The old versions of an entry. -/
def versions (e : Entry) : List Version := e.history.getD []

/-- The history is newest first, and nothing in it is newer than the current version. -/
def InOrder (e : Entry) : Prop := NewestFirst (e.toVersion :: versions e)

instance (e : Entry) : Decidable (InOrder e) := inferInstanceAs (Decidable (NewestFirst _))

/-- `History::add_entry`, on the history of an entry. -/
def addHistory (e : Entry) (historical : Version) : Entry :=
  { e with history := some (historical :: e.history.getD []) }

/-- `prune_history`: the newest `max` versions stay. -/
def pruneHistory (e : Entry) (max : Nat) : Entry :=
  match e.history with
  | some history => if history.length > max then { e with history := some (history.take max) } else e
  | none => e

/-! ## Entries -/

/-- `find_entry_id`. -/
def findEntryId (db : Database) (uuid : Uuid) : Except VaultError EntryId :=
  if uuid ∈ db.entries then .ok uuid else .error (.entryNotFound uuid)

/-- `find_group_id`. -/
def findGroupId (db : Database) (uuid : Uuid) : Except VaultError GroupId :=
  if uuid ∈ db.groups then .ok uuid else .error (.groupNotFound uuid)

/-! The names of the standard fields. -/

def titleField : String := "Title"
def usernameField : String := "UserName"
def passwordField : String := "Password"
def urlField : String := "URL"
def notesField : String := "Notes"

structure CustomFieldDraft where
  name : String
  value : String
  «protected» : Bool

/-- `EntryDraft`, as far as it goes into the entry. -/
structure EntryDraft where
  title : String
  username : Option String := none
  password : Option String := none
  url : Option String := none
  notes : Option String := none
  tags : List String := []
  expiresAt : Option NaiveDateTime := none
  customFields : List CustomFieldDraft := []

/-- A field value, protected or not. -/
def fieldValue («protected» : Bool) (value : String) : Value String :=
  if «protected» then .«protected» value else .unprotected value

/-- `populate_entry_from_draft`. -/
def populateEntryFromDraft (now : Nat → NaiveDateTime) (e : Entry) (draft : EntryDraft) : Entry :=
  let set (name : String) («protected» : Bool) (value : Option String) (fields : HashMap String (Value String)) :=
    match value with
    | some value => fields.insert name (fieldValue «protected» value)
    | none => fields
  let fields := e.fields.insert titleField (.unprotected draft.title)
  let fields := set usernameField false draft.username fields
  let fields := set passwordField true draft.password fields
  let fields := set urlField false draft.url fields
  let fields := set notesField false draft.notes fields
  let times := match draft.expiresAt with
    | some expiresAt => { e.times with expires := some true, expiry := some expiresAt }
    | none => e.times
  { e with
    fields := draft.customFields.foldl (fun fields f => fields.insert f.name (fieldValue f.protected f.value)) fields
    tags := draft.tags
    times := { times with creation := some (now 1), lastModification := some (now 2) } }

/-- `Vault::add_entry`; the entry gets the UUID `fresh`. -/
def addEntry (db : Database) (group : Uuid) (draft : EntryDraft) (fresh : EntryId) (now : Nat → NaiveDateTime) :
    Except VaultError (Database × Uuid) := do
  let groupId ← findGroupId db group
  let e : Entry := { id := fresh, parent := groupId, times := Times.new (now 0) }
  let db := db.modifyGroup groupId fun g => { g with entries := insert fresh g.entries }
  return ({ db with entries := db.entries.insert fresh (populateEntryFromDraft now e draft) }, fresh)

/-- The calls of `EntryViewMut`. -/
inductive ViewEdit where
  | setTitle (value : String)
  | setUsername (value : String)
  | setPassword (value : String)
  | setUrl (value : String)
  | setNotes (value : String)
  | addTag (value : String)
  | removeTag (value : String)
  | setTags (values : List String)
  | setCustomField (name value : String) («protected» : Bool)
  | removeCustomField (name : String)

/-- What a call of `EntryViewMut` makes of the fields and tags; `none` if nothing changes. -/
def ViewEdit.apply (v : Version) : ViewEdit → Option (HashMap String (Value String) × List String)
  | .setTitle value => some (v.fields.insert titleField (.unprotected value), v.tags)
  | .setUsername value => some (v.fields.insert usernameField (.unprotected value), v.tags)
  | .setPassword value => some (v.fields.insert passwordField (.«protected» value), v.tags)
  | .setUrl value => some (v.fields.insert urlField (.unprotected value), v.tags)
  | .setNotes value => some (v.fields.insert notesField (.unprotected value), v.tags)
  | .addTag value => if value ∈ v.tags then none else some (v.fields, v.tags ++ [value])
  | .removeTag value =>
    let tags := v.tags.filter fun tag => tag ≠ value
    if tags.length = v.tags.length then none else some (v.fields, tags)
  | .setTags values => some (v.fields, values.foldl (fun tags value => if value ∈ tags then tags
      else tags ++ [value]) [])
  | .setCustomField name value «protected» => some (v.fields.insert name (fieldValue «protected» value), v.tags)
  | .removeCustomField name => if name ∈ v.fields then some (v.fields.erase name, v.tags) else none

/-- The entry with its current version in its history, as far as the cap allows. -/
def recordHistory (cap : HistoryCap) (e : Entry) : Entry :=
  match cap with
  | .disabled => e
  | .unlimited => addHistory e e.toVersion
  | .max max => pruneHistory (addHistory e e.toVersion) max

/-- The entry with new fields and tags, modified at `now`. -/
def edited (fields : HashMap String (Value String)) (tags : List String) (now : NaiveDateTime) (e : Entry) : Entry :=
  { e with fields := fields, tags := tags, times := { e.times with lastModification := some now } }

/-- `Vault::get_entry_mut` and a call of the view, `touch` included. -/
def editEntry (db : Database) (uuid : Uuid) (edit : ViewEdit) (now : NaiveDateTime) : Except VaultError Database := do
  let id ← findEntryId db uuid
  match db.entry id with
  | none => .error (.entryNotFound uuid)
  | some e =>
    match edit.apply e.toVersion with
    | none => return db
    | some (fields, tags) => return db.modifyEntry id (edited fields tags now)

/-- `Vault::update_entry`. `f` is what the closure makes of the fields and tags; when it fails, the entry is as it
was. -/
def updateEntry (db : Database) (uuid : Uuid)
    (f : Version → Except VaultError (HashMap String (Value String) × List String)) (now : NaiveDateTime) :
    Except VaultError Database := do
  let id ← findEntryId db uuid
  match db.entry id with
  | none => .error (.entryNotFound uuid)
  | some e =>
    let (fields, tags) ← f e.toVersion
    return db.modifyEntry id fun e => edited fields tags now (recordHistory (historyCap db) e)

/-- An update of an entry that is there. -/
theorem updateEntry_ok {db : Database} {uuid : Uuid} {e : Entry} (now : NaiveDateTime)
    {f : Version → Except VaultError (HashMap String (Value String) × List String)}
    {x : HashMap String (Value String) × List String} (he : db.entry uuid = some e) (hf : f e.toVersion = .ok x) :
    updateEntry db uuid f now =
      .ok (db.modifyEntry uuid fun e => edited x.1 x.2 now (recordHistory (historyCap db) e)) := by
  have hfind : findEntryId db uuid = .ok uuid := if_pos (Finmap.mem_of_lookup_eq_some he)
  refine Loop.bind_ok.2 ⟨uuid, hfind, ?_⟩
  dsimp only
  rw [he]
  exact Loop.bind_ok.2 ⟨x, hf, rfl⟩

/-- `Vault::set_expiration`. -/
def setExpiration (db : Database) (uuid : Uuid) (when now : NaiveDateTime) : Except VaultError Database := do
  let id ← findEntryId db uuid
  match db.entry id with
  | none => .error (.entryNotFound uuid)
  | some _ =>
    return db.modifyEntry id fun e =>
      { e with times := { e.times with expires := some true, expiry := some when, lastModification := some now } }

/-- `Vault::clear_expiration`. -/
def clearExpiration (db : Database) (uuid : Uuid) (now : NaiveDateTime) : Except VaultError Database := do
  let id ← findEntryId db uuid
  match db.entry id with
  | none => .error (.entryNotFound uuid)
  | some _ =>
    return db.modifyEntry id fun e =>
      { e with times := { e.times with expires := some false, lastModification := some now } }

/-- `times.location_changed` set. -/
def relocatedAt (now : NaiveDateTime) (e : Entry) : Entry :=
  { e with times := { e.times with locationChanged := some now } }

/-- `EntryTrack::move_to`, with the version before the move put into the history when the tracking ends. -/
def trackedMoveTo (db : Database) (id : EntryId) (group : GroupId) (now : NaiveDateTime) :
    Except Fault (Option Database) := do
  let historical ← expect (db.entry id)
  match ← db.moveEntryTo id group with
  | none => return none
  | some db =>
    let db := db.modifyEntry id (relocatedAt now)
    return some (db.modifyEntry id fun e => addHistory e historical.toVersion)

/-- `Vault::move_entry`. -/
def moveEntry (db : Database) (uuid newGroup : Uuid) (now : NaiveDateTime) :
    Except Fault (Except VaultError Database) :=
  match findEntryId db uuid, findGroupId db newGroup with
  | .error e, _ => return .error e
  | _, .error e => return .error e
  | .ok id, .ok group => do
    match ← trackedMoveTo db id group now with
    | none => return .error (.groupNotFound newGroup)
    | some db => return .ok db

/-- `Database::recycle_bin`. -/
def recycleBin (db : Database) : Option GroupId :=
  db.meta.recyclebinUuid.filter fun id => id ∈ db.groups

/-- `GroupMut::add_group`, whose new group is then filled in as `group`. -/
def addGroup (db : Database) (parent id : GroupId) (group : Group) : Database :=
  { db with groups := (db.groups.modify parent fun g => { g with groups := insert id g.groups }).insert id group }

def recycleBinName : String := "Recycle Bin"

/-- `recycle_bin_group_id_or_create`; a new bin gets the UUID `fresh`. -/
def recycleBinGroupIdOrCreate (db : Database) (fresh : GroupId) (now : Nat → NaiveDateTime) : Database × GroupId :=
  match recycleBin db with
  | some bin => (db, bin)
  | none =>
    let bin : Group :=
      { id := fresh
        parent := some db.root
        name := recycleBinName
        times := { Times.new (now 0) with creation := some (now 1), lastModification := some (now 2) } }
    ({ addGroup db db.root fresh bin with
      «meta» := { db.meta with
        recyclebinUuid := some fresh
        recyclebinEnabled := some true
        recyclebinChanged := some (now 3) } }, fresh)

/-- `Vault::purge_entry`. -/
def purgeEntry (env : Env) (db : Database) (uuid : Uuid) (now : NaiveDateTime) :
    Except Fault (Except VaultError Database) :=
  match findEntryId db uuid with
  | .error e => return .error e
  | .ok id => do
    let db := { db with deletedObjects := db.deletedObjects.insert id (some now) }
    return .ok (← db.removeEntry env id)

/-- `Vault::delete_entry`. -/
def deleteEntry (env : Env) (db : Database) (uuid : Uuid) (fresh : GroupId) (now : Nat → NaiveDateTime) :
    Except Fault (Except VaultError Database) :=
  if db.meta.recyclebinEnabled.getD true = false then purgeEntry env db uuid (now 0)
  else match findEntryId db uuid with
    | .error e => return .error e
    | .ok id => do
      let (db, bin) := recycleBinGroupIdOrCreate db fresh now
      let e ← expect (db.entry id)
      if e.parent = bin then return .ok db
      match ← trackedMoveTo db id bin (now 4) with
      | none => return .error (.groupNotFound bin)
      | some db => return .ok db

/-! ## Copies of a database -/

/-- `db` comes from `base` by moves, deletions into the recycle bin and updates: it moved the entries `moved`, updated
the entries `updated`, and created the bins `bins` under UUIDs never used before. -/
inductive Derived (env : Env) (base : Database) : Set EntryId → Set EntryId → Set GroupId → Database → Prop where
  | base : Derived env base ∅ ∅ ∅ base
  | move {moved updated : Set EntryId} {bins : Set GroupId} {db db' : Database} {uuid group : Uuid}
      {now : NaiveDateTime} :
      Derived env base moved updated bins db → moveEntry db uuid group now = .ok (.ok db') →
      Derived env base (moved ∪ {uuid}) updated bins db'
  | delete {moved updated : Set EntryId} {bins : Set GroupId} {db db' : Database} {uuid fresh : Uuid}
      {now : Nat → NaiveDateTime} :
      Derived env base moved updated bins db → db.meta.recyclebinEnabled.getD true = true →
      (recycleBin db = none → fresh ∉ db.groups ∧ fresh ∉ base.groups ∧ fresh ∉ base.deletedObjects) →
      deleteEntry env db uuid fresh now = .ok (.ok db') →
      Derived env base (moved ∪ {i | i = uuid ∧ db.homeOf i ≠ recycleBin db}) updated
        (bins ∪ {i | i = fresh ∧ recycleBin db = none}) db'
  | update {moved updated : Set EntryId} {bins : Set GroupId} {db db' : Database} {uuid : Uuid}
      {f : Version → Except VaultError (HashMap String (Value String) × List String)} {now : NaiveDateTime} :
      Derived env base moved updated bins db → updateEntry db uuid f now = .ok db' →
      Derived env base moved (updated ∪ {uuid}) bins db'

/-- A version up to its times and its parent. -/
def unplaced (v : Version) : Version := { v.contentOnly with parent := 0 }

/-- What the copies of a database keep of it. -/
structure Kin (base : Database) (moved updated : Set EntryId) (bins : Set GroupId) (db : Database) : Prop where
  linked : Linked db
  root : db.root = base.root
  attachments : db.attachments = base.attachments
  deletedObjects : db.deletedObjects = base.deletedObjects
  entries : ∀ i, i ∈ db.entries ↔ i ∈ base.entries
  entry : ∀ i e b, db.entry i = some e → base.entry i = some b → e.attachments = b.attachments ∧
    (i ∉ moved → e.parent = b.parent) ∧
    (i ∉ updated → e.times.lastModification = b.times.lastModification ∧ unplaced e.toVersion = unplaced b.toVersion)
  group : ∀ i ∈ base.groups, (db.group i).map Group.bare = (base.group i).map Group.bare
  new : ∀ i ∈ db.groups, i ∈ base.groups ∨ i ∈ bins
  bins : ∀ i ∈ bins, i ∉ base.groups ∧ i ∉ base.deletedObjects

variable {env : Env} {base db db' : Database} {moved updated : Set EntryId} {bins : Set GroupId} {id : Uuid}

theorem recordHistory_same (cap : HistoryCap) (e : Entry) :
    (recordHistory cap e).place = e.place ∧ (recordHistory cap e).attachments = e.attachments := by
  unfold recordHistory
  split
  · exact ⟨rfl, rfl⟩
  · exact ⟨rfl, rfl⟩
  · unfold pruneHistory
    split
    · split <;> exact ⟨rfl, rfl⟩
    · exact ⟨rfl, rfl⟩

theorem relocatedAt_place {now : NaiveDateTime} (e : Entry) : (relocatedAt now e).place = e.place := rfl

theorem addHistory_place (v : Version) (e : Entry) : (addHistory e v).place = e.place := rfl

theorem trackedMoveTo_ok {group : GroupId} {now : NaiveDateTime} (hl : Linked db)
    (h : trackedMoveTo db id group now = .ok (some db')) :
    ∃ e, db.entry id = some e ∧ Round id db db' ∧ db'.attachments = db.attachments ∧
      db'.deletedObjects = db.deletedObjects ∧
      (∀ i, (db'.group i).map Group.bare = (db.group i).map Group.bare) ∧
      db'.entry id = some (addHistory (relocatedAt now { e with parent := group }) e.toVersion) := by
  simp only [trackedMoveTo, Loop.bind_ok, expect_ok] at h
  obtain ⟨e, he, r, hr, h⟩ := h
  cases r with
  | none => cases h
  | some t =>
    obtain ⟨hg, e', he', ht⟩ := moveEntryTo_ok hr
    rw [he, Option.some.injEq] at he'; subst he'
    have edit := moveEntryTo_edit hl hr
    have entry : ∀ j, t.entry j = if j = id then some { e with parent := group } else db.entry j := by
      intro j
      rw [ht, entry_modifyEntry, entry_modifyGroup, entry_modifyGroup, entry_modifyGroup, entry_modifyGroup, he]
      rfl
    have hatt : t.attachments = db.attachments := by
      rw [ht]; simp only [attachments_modifyEntry, attachments_modifyGroup]
    have hdel : t.deletedObjects = db.deletedObjects := by
      rw [ht]; simp only [deletedObjects_modifyEntry, deletedObjects_modifyGroup]
    have hbare : ∀ i, (t.group i).map Group.bare = (db.group i).map Group.bare := fun i => by
      rw [ht, group_modifyEntry]
      refine Eq.trans (bare_modifyGroup ?_) (bare_modifyGroup ?_)
      · intro g; rfl
      · intro g; rfl
    clear ht
    have moved : Round id db t := .of_edit hl edit (fun j hj => by rw [entry, if_neg hj]) hdel
    have stamped : Round id t (t.modifyEntry id (relocatedAt now)) := .modifyEntry moved.linked id relocatedAt_place
    have recorded := Round.modifyEntry stamped.linked id (addHistory_place e.toVersion)
    obtain rfl := Option.some.inj (Loop.pure_ok.1 h)
    refine ⟨e, he, (moved.trans stamped).trans recorded, hatt, hdel, hbare, ?_⟩
    rw [entry_modifyEntry, if_pos rfl, entry_modifyEntry, if_pos rfl, entry, if_pos rfl]
    rfl

/-- A new bin is one more group of the tree, under the root. -/
theorem newBin_linked {fresh : GroupId} (now : Nat → NaiveDateTime) (hl : Linked db) (hnone : recycleBin db = none)
    (hfresh : fresh ∉ db.groups) : Linked (recycleBinGroupIdOrCreate db fresh now).1 ∧
      (∀ i, i ∈ (recycleBinGroupIdOrCreate db fresh now).1.groups ↔ i = fresh ∨ i ∈ db.groups) ∧
      (recycleBinGroupIdOrCreate db fresh now).1.parentOf = Function.update db.parentOf fresh (some db.root) ∧
      ∀ i, i ≠ fresh → ((recycleBinGroupIdOrCreate db fresh now).1.group i).map Group.bare =
        (db.group i).map Group.bare := by
  set bin : Group :=
    { id := fresh
      parent := some db.root
      name := recycleBinName
      times := { Times.new (now 0) with creation := some (now 1), lastModification := some (now 2) } } with hbin
  have hadd : db.addGroupWithId db.root fresh bin = .ok (addGroup db db.root fresh bin) := by
    unfold addGroupWithId addGroup; rw [if_neg hfresh]
  obtain ⟨hl, hmem, hparent⟩ := @addGroupWithId_linked _ _ _ fresh bin hl rfl rfl rfl rfl hl.root_mem hadd
  have tree : SameTree (addGroup db db.root fresh bin) (recycleBinGroupIdOrCreate db fresh now).1 := by
    unfold recycleBinGroupIdOrCreate; rw [hnone]
    exact .of_eq rfl rfl rfl
  refine ⟨tree.linkedBut hl, fun i => tree.mem_groups_iff.trans (hmem i), tree.parentOf_eq.trans hparent,
    fun i hid => ?_⟩
  have group := group_addGroupWithId hadd i
  rw [if_neg hid] at group
  have same : (recycleBinGroupIdOrCreate db fresh now).1.group i = (addGroup db db.root fresh bin).group i := by
    unfold recycleBinGroupIdOrCreate; rw [hnone]; rfl
  rw [same, group]
  refine bare_modifyGroup ?_
  intro g; rfl

namespace Kin

theorem refl (hb : Linked base) : Kin base ∅ ∅ ∅ base := by
  refine ⟨hb, rfl, rfl, rfl, fun _ => .rfl, fun i e b he hb => ?_, fun _ _ =>
    rfl, fun i hi => .inl hi, fun i hi => hi.elim⟩
  obtain rfl := Option.some.inj (he.symm.trans hb)
  exact ⟨rfl, fun _ => rfl, fun _ => ⟨rfl, rfl⟩⟩

/-- A change of one entry. -/
theorem edit {moved' updated' : Set EntryId} {e e' : Entry} (h : Kin base moved updated bins db) (hr : Round id db db')
    (hatt : db'.attachments = db.attachments) (hdel : db'.deletedObjects = db.deletedObjects)
    (hbare : ∀ i, (db'.group i).map Group.bare = (db.group i).map Group.bare) (he : db.entry id = some e)
    (he' : db'.entry id = some e') (hm : moved ⊆ moved') (hu : updated ⊆ updated')
    (hatt' : e'.attachments = e.attachments)
    (hparent : id ∉ moved' → e'.parent = e.parent)
    (hcontent : id ∉ updated' → e'.times.lastModification = e.times.lastModification ∧
      unplaced e'.toVersion = unplaced e.toVersion) :
    Kin base moved' updated' bins db' := by
  refine ⟨hr.linked, hr.root.trans h.root, hatt.trans h.attachments, hdel.trans h.deletedObjects, fun i => ?_,
    fun i x b hx hb => ?_, fun i hi => (hbare i).trans (h.group i hi), fun i hi => h.new i ((hr.mem i).1 hi), h.bins⟩
  · rw [← h.entries, mem_entries, mem_entries]
    by_cases hi : i = id
    · subst hi; simp [he, he']
    · rw [hr.others i hi]
  · by_cases hi : i = id
    · subst hi
      obtain rfl := Option.some.inj (he'.symm.trans hx)
      obtain ⟨ha, hp, hc⟩ := h.entry i e b he hb
      exact ⟨hatt'.trans ha, fun hn => (hparent hn).trans (hp fun hm' => hn (hm hm')), fun hn =>
        ⟨(hcontent hn).1.trans (hc fun hu' => hn (hu hu')).1, (hcontent hn).2.trans (hc fun hu' => hn (hu hu')).2⟩⟩
    · rw [hr.others i hi] at hx
      obtain ⟨ha, hp, hc⟩ := h.entry i x b hx hb
      exact ⟨ha, fun hn => hp fun hm' => hn (hm hm'), fun hn => hc fun hu' => hn (hu hu')⟩

theorem tracked {group : GroupId} {now : NaiveDateTime} (h : Kin base moved updated bins db)
    (ht : trackedMoveTo db id group now = .ok (some db')) : Kin base (moved ∪ {id}) updated bins db' := by
  obtain ⟨e, he, round, hatt, hdel, hbare, he'⟩ := trackedMoveTo_ok h.linked ht
  refine h.edit round hatt hdel hbare he he' Set.subset_union_left subset_rfl rfl (fun hn => ?_) fun _ => ⟨rfl, rfl⟩
  exact absurd (.inr rfl) hn

theorem move {uuid group : Uuid} {now : NaiveDateTime} (h : Kin base moved updated bins db)
    (hm : moveEntry db uuid group now = .ok (.ok db')) : Kin base (moved ∪ {uuid}) updated bins db' := by
  unfold moveEntry findEntryId findGroupId at hm
  by_cases hu : uuid ∈ db.entries
  · by_cases hg : group ∈ db.groups
    · simp only [hu, hg, if_true, Loop.bind_ok] at hm
      obtain ⟨r, hr, hm⟩ := hm
      cases r with
      | none => simp at hm
      | some t =>
        simp only [Loop.pure_ok, Except.ok.injEq] at hm
        subst hm
        exact h.tracked hr
    · simp [hu, hg] at hm
  · simp [hu] at hm

theorem update {uuid : Uuid} {f : Version → Except VaultError (HashMap String (Value String) × List String)}
    {now : NaiveDateTime} (h : Kin base moved updated bins db) (hu : updateEntry db uuid f now = .ok db') :
    Kin base moved (updated ∪ {uuid}) bins db' := by
  simp only [updateEntry, Loop.bind_ok] at hu
  obtain ⟨id, hid, hu⟩ := hu
  have hid : uuid = id := by
    unfold findEntryId at hid
    split at hid
    · exact Except.ok.inj hid
    · cases hid
  subst hid
  cases he : db.entry uuid with
  | none => simp [he] at hu
  | some e =>
    simp only [he, Loop.bind_ok, Loop.pure_ok] at hu
    obtain ⟨⟨fields, tags⟩, -, rfl⟩ := hu
    set g : Entry → Entry := fun e => edited fields tags now (recordHistory (historyCap db) e) with hg
    have same : ∀ e, (g e).place = e.place ∧ (g e).attachments = e.attachments := by
      intro e
      obtain ⟨hp, ha⟩ := recordHistory_same (historyCap db) e
      exact ⟨hp, ha⟩
    have round : Round uuid db (db.modifyEntry uuid g) := .modifyEntry h.linked uuid fun e => (same e).1
    have entry : (db.modifyEntry uuid g).entry uuid = some (g e) := by
      rw [entry_modifyEntry, if_pos rfl, he, Option.map_some]
    exact h.edit round rfl rfl (fun _ => rfl) he entry subset_rfl Set.subset_union_left (same e).2
      (fun _ => congrArg Prod.snd (same e).1) fun hn => absurd (.inr rfl) hn

/-- A new bin. -/
theorem newBin {fresh : GroupId} (now : Nat → NaiveDateTime) (h : Kin base moved updated bins db)
    (hnone : recycleBin db = none) (hfresh : fresh ∉ db.groups ∧ fresh ∉ base.groups ∧ fresh ∉ base.deletedObjects) :
    Kin base moved updated (bins ∪ {fresh}) (recycleBinGroupIdOrCreate db fresh now).1 := by
  obtain ⟨hl, hmem, -, hbare⟩ := newBin_linked now h.linked hnone hfresh.1
  have same : (recycleBinGroupIdOrCreate db fresh now).1 = { db with
      groups := (recycleBinGroupIdOrCreate db fresh now).1.groups
      «meta» := (recycleBinGroupIdOrCreate db fresh now).1.meta } := by
    unfold recycleBinGroupIdOrCreate; rw [hnone]; rfl
  rw [same] at hl hmem hbare ⊢
  refine ⟨hl, h.root, h.attachments, h.deletedObjects, h.entries, h.entry, fun i hi => ?_, fun i hi => ?_, ?_⟩
  · have hid : i ≠ fresh := by rintro rfl; exact hfresh.2.1 hi
    exact (hbare i hid).trans (h.group i hi)
  · rcases (hmem i).1 hi with rfl | hi
    · exact .inr (.inr rfl)
    · exact (h.new i hi).imp id .inl
  · rintro i (hi | rfl)
    · exact h.bins i hi
    · exact hfresh.2

theorem delete {env : Env} {uuid fresh : Uuid} {now : Nat → NaiveDateTime} (h : Kin base moved updated bins db)
    (hbin : db.meta.recyclebinEnabled.getD true = true)
    (hfresh : recycleBin db = none → fresh ∉ db.groups ∧ fresh ∉ base.groups ∧ fresh ∉ base.deletedObjects)
    (hd : deleteEntry env db uuid fresh now = .ok (.ok db')) :
    Kin base (moved ∪ {i | i = uuid ∧ db.homeOf i ≠ recycleBin db}) updated
      (bins ∪ {i | i = fresh ∧ recycleBin db = none}) db' := by
  unfold deleteEntry at hd
  rw [if_neg (by rw [hbin]; decide)] at hd
  by_cases hu : uuid ∈ db.entries
  swap
  · simp [findEntryId, hu] at hd
  simp only [findEntryId, hu, if_true, Loop.bind_ok, expect_ok] at hd
  obtain ⟨e, he, hd⟩ := hd
  -- the database with a bin in it
  have binned : Kin base moved updated (bins ∪ {i | i = fresh ∧ recycleBin db = none})
    (recycleBinGroupIdOrCreate db fresh now).1 ∧
      (recycleBinGroupIdOrCreate db fresh now).1.homeOf = db.homeOf ∧
      (e.parent = (recycleBinGroupIdOrCreate db fresh now).2 ↔ db.homeOf uuid = recycleBin db) := by
    cases hbin : recycleBin db with
    | none =>
      have made := h.newBin now hbin (hfresh hbin)
      have home : (recycleBinGroupIdOrCreate db fresh now).1.homeOf = db.homeOf := by
        unfold recycleBinGroupIdOrCreate; rw [hbin]; rfl
      have he' : db.homeOf uuid = some e.parent := by rw [← home]; exact homeOf_of_entry he
      refine ⟨by simpa using made, home, iff_of_false ?_ (by rw [he']; simp)⟩
      have : (recycleBinGroupIdOrCreate db fresh now).2 = fresh := by unfold recycleBinGroupIdOrCreate; rw [hbin]
      rw [this]
      rintro hp
      obtain ⟨x, hx, hxp⟩ := homeOf_eq_some.1 he'
      exact (hfresh hbin).1 (hp ▸ hxp ▸ h.linked.home hx)
    | some bin =>
      have same : recycleBinGroupIdOrCreate db fresh now = (db, bin) := by unfold recycleBinGroupIdOrCreate; rw [hbin]
      rw [same] at he ⊢
      refine ⟨by simpa using h, rfl, ?_⟩
      rw [homeOf_of_entry he, Option.some.injEq]
  obtain ⟨kin, home, hparent⟩ := binned
  split at hd
  · rename_i hp
    simp only [Loop.pure_ok, Except.ok.injEq] at hd
    subst hd
    have nothing : {i | i = uuid ∧ db.homeOf i ≠ recycleBin db} = ∅ := by
      refine Set.eq_empty_of_forall_notMem ?_
      rintro i ⟨rfl, hne⟩
      exact hne (hparent.1 hp)
    rw [nothing, Set.union_empty]
    exact kin
  · rename_i hp
    obtain ⟨r, hr, hd⟩ := Loop.bind_ok.1 hd
    cases r with
    | none => simp at hd
    | some t =>
      simp only [Loop.pure_ok, Except.ok.injEq] at hd
      subst hd
      have one : {i | i = uuid ∧ db.homeOf i ≠ recycleBin db} = {uuid} := by
        ext i
        simp only [Set.mem_ofPred_eq, Set.mem_singleton_iff]
        refine ⟨And.left, ?_⟩
        rintro rfl
        exact ⟨rfl, fun hb => hp (hparent.2 hb)⟩
      rw [one]
      exact kin.tracked hr

end Kin

theorem Derived.kin {env : Env} (hb : Linked base) (h : Derived env base moved updated bins db) :
    Kin base moved updated bins db := by
  induction h with
  | base => exact .refl hb
  | move _ hm ih => exact ih.move hm
  | delete _ hbin hfresh hd ih => exact ih.delete hbin hfresh hd
  | update _ hu ih => exact ih.update hu

end Falach
