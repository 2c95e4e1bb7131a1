import Falach.Vault.Operations
/-!
# What the calls of a vault do

For each call, what it does to the tree, to the histories and to the tombstones. A refused call leaves the links of the
tree as they were.
-/

namespace Falach

open Keepass Database

variable {env : Env} {db db' t : Database} {call : VaultCall} {r : Except VaultError Unit} {id : EntryId}

/-! ## The settings -/

@[simp] theorem meta_dropReference (db : Database) (id : EntryId) (att : AttachmentId) :
    (db.dropReference id att).meta = db.meta := by
  obtain ⟨pool, h⟩ := dropReference_eq db id att
  rw [h]

theorem addAttachment_meta {name : String} {data : Value Bytes} (h : db.addAttachment id name data = .ok db') :
    db'.meta = db.meta := by
  simp only [Database.addAttachment, Loop.bind_ok] at h
  obtain ⟨e, -, h⟩ := h
  split at h
  · rw [← Loop.pure_ok.1 h]
    exact meta_dropReference _ _ _
  · rw [← Loop.pure_ok.1 h]; rfl

theorem removeAttachmentByName_meta {name : String} (h : db.removeAttachmentByName id name = .ok db') :
    db'.meta = db.meta := by
  simp only [Database.removeAttachmentByName, Loop.bind_ok] at h
  obtain ⟨e, -, h⟩ := h
  split at h
  · rw [Loop.pure_ok.1 h]
  · rw [← Loop.pure_ok.1 h]
    exact meta_dropReference _ _ _

theorem releaseEntryIcon_meta (db : Database) (id : EntryId) (n : Option Nat) (icon : Option Icon) :
    (db.releaseEntryIcon id n icon).meta = db.meta := by
  unfold releaseEntryIcon
  split <;> rfl

theorem releaseHistoryIcons_meta (db : Database) (id : EntryId) (history : List Version) :
    (db.releaseHistoryIcons id history).meta = db.meta := by
  unfold releaseHistoryIcons
  generalize history.zipIdx = l
  induction l generalizing db with
  | nil => rfl
  | cons v l ih => exact (ih _).trans (releaseEntryIcon_meta db id _ _)

theorem removeEntry_meta (h : removeEntry env db id = .ok db') : db'.meta = db.meta := by
  simp only [removeEntry, Loop.bind_ok, expect_ok, Loop.pure_ok] at h
  obtain ⟨e, -, mid, hmid, -, -, rfl⟩ := h
  have dropped := Loop.foldlM_inv (fun t : Database => t.meta = db.meta) (fun name _ t t' ht hstep => by
    obtain ⟨_, _, hstep⟩ := Loop.bind_ok.1 hstep
    obtain ⟨_, _, hstep⟩ := Loop.bind_ok.1 hstep
    rw [← Loop.pure_ok.1 hstep, meta_dropReference, ht]) hmid
    ((releaseHistoryIcons_meta _ id _).trans (releaseEntryIcon_meta db id _ _))
  exact dropped

theorem historyCap_congr (h : db'.meta = db.meta) : historyCap db' = historyCap db := by
  unfold historyCap
  rw [h]

/-! ## One entry, or none -/

theorem Alters.refl (o : Option Entry) : Alters db call id o o := by
  cases o with
  | none => exact .absent
  | some e => exact .kept rfl rfl

namespace Effect

/-- The entries stay. -/
theorem of_entries (hl : Linked db') (entries : db'.entries = db.entries)
    (tombstones : db'.deletedObjects = db.deletedObjects)
    (cap : historyCap db' = historyCap db) : Effect call db db' where
  linked := hl
  entry i := by
    have same : db'.entry i = db.entry i := by simp only [Database.entry, entries]
    rw [same]
    exact .refl _
  tombstones i hi := tombstones ▸ hi
  removed i hi hn := absurd (entries ▸ hi) hn
  cap _ := cap

theorem refl (hl : Linked db) : Effect call db db := .of_entries hl rfl rfl rfl

/-- One entry is rewritten. -/
theorem one {e x : Entry} (hl : Linked db') (others : ∀ i, i ≠ id → db'.entry i = db.entry i)
    (he : db.entry id = some e)
    (hx : db'.entry id = some x) (tombstones : db'.deletedObjects = db.deletedObjects)
    (cap : historyCap db' = historyCap db) (alters : Alters db call id (some e) (some x)) : Effect call db db' where
  linked := hl
  entry i := by
    by_cases hi : i = id
    · rw [hi, he, hx]; exact alters
    · rw [others i hi]; exact .refl _
  tombstones i hi := tombstones ▸ hi
  removed i hi hn := by
    obtain ⟨old, hold⟩ := (mem_entries db).1 hi
    refine absurd ((mem_entries db').2 ?_) hn
    by_cases hi : i = id
    · exact ⟨x, hi ▸ hx⟩
    · exact ⟨old, (others i hi).trans hold⟩
  cap _ := cap

/-- One entry is rewritten where it is. -/
theorem modifyEntry {e : Entry} {f : Entry → Entry} (hl : Linked db) (he : db.entry id = some e)
    (place : ∀ e, (f e).place = e.place) (alters : Alters db call id (some e) (some (f e))) :
    Effect call db (db.modifyEntry id f) := by
  have round := Round.modifyEntry hl id place
  refine .one round.linked round.others he ?_ rfl rfl alters
  rw [entry_modifyEntry, if_pos rfl, he, Option.map_some]

end Effect

/-- A call that refuses before it changes anything. -/
theorem leaves_effect {x : Except VaultError Database} (hl : Linked db) (h : leaves db x = (r, db'))
    (hx : ∀ t, x = .ok t → Effect call db t) : Effect call db db' := by
  cases x with
  | error e => cases h; exact .refl hl
  | ok t => cases h; exact hx _ rfl

theorem leaves_refused {x : Except VaultError Database} {e : VaultError} (h : leaves db x = (.error e, db')) :
    db' = db := by
  cases x with
  | error e => cases h; rfl
  | ok t => cases h

theorem findEntryId_entry {uuid : Uuid} (h : findEntryId db uuid = .ok id) :
    id = uuid ∧ ∃ e, db.entry uuid = some e := by
  obtain ⟨hm, rfl⟩ := findEntryId_ok h
  exact ⟨rfl, (mem_entries db).1 hm⟩

theorem findGroupId_ok {uuid : Uuid} {group : GroupId} (h : findGroupId db uuid = .ok group) :
    uuid ∈ db.groups ∧ group = uuid := by
  unfold findGroupId at h
  split at h
  · exact ⟨‹_›, (Except.ok.inj h).symm⟩
  · cases h

/-! ## Entries -/

theorem addEntry_effect {group : Uuid} {draft : EntryDraft} {fresh : EntryId} {now : Nat → NaiveDateTime} {uuid : Uuid}
    (hl : Linked db) (hfresh : fresh ∉ db.entries) (h : addEntry db group draft fresh now = .ok (db', uuid)) :
    Effect call db db' := by
  have linked := (addEntry_retains hl hfresh h).linked
  simp only [addEntry, Loop.bind_ok] at h
  obtain ⟨g, -, h⟩ := h
  obtain ⟨hdb, -⟩ := Prod.mk.inj (Loop.pure_ok.1 h)
  set e := populateEntryFromDraft now { id := fresh, parent := g, times := Times.new (now 0) } draft with he
  have entries : db'.entries = db.entries.insert fresh e := by rw [← hdb]; rfl
  have entry : ∀ i, db'.entry i = if i = fresh then some e else db.entry i := fun i => by
    rw [Database.entry, entries]
    exact Finmap.lookup_insert_eq fresh i e _
  refine ⟨linked, fun i => ?_, fun i hi => ?_, fun i hi hn => ?_, fun _ => ?_⟩
  · rw [entry]
    split
    · subst_vars
      rw [show db.entry i = none from Finmap.notMem_iff_lookup.1 hfresh]
      exact .added rfl
    · exact .refl _
  · rw [← hdb]; exact hi
  · exact absurd (entries ▸ Finmap.mem_insert.2 (.inr hi)) hn
  · rw [← hdb]; rfl

/-- The calls that rewrite an entry and set its modification time. -/
theorem stamped_effect {e : Entry} {now : NaiveDateTime} {f : Entry → Entry} (hl : Linked db)
    (he : db.entry id = some e)
    (place : ∀ e, (f e).place = e.place) (hstamp : call.stamps = some (id, now))
    (hversions : versions (f e) = versions e)
    (htime : (f e).time = now) : Effect call db (db.modifyEntry id f) :=
  .modifyEntry hl he place (.stamped hstamp hversions htime)

theorem editEntry_effect {uuid : Uuid} {edit : ViewEdit} {now : NaiveDateTime} (hl : Linked db)
    (h : editEntry db uuid edit now = .ok db') : Effect (.editEntry uuid edit now) db db' := by
  simp only [editEntry, Loop.bind_ok] at h
  obtain ⟨id, hid, h⟩ := h
  obtain ⟨rfl, e, he⟩ := findEntryId_entry hid
  rw [he] at h
  split at h
  · cases h
  · split at h
    · rw [← Loop.pure_ok.1 h]; exact .refl hl
    · rename_i hx _ _ _ _
      obtain rfl := Option.some.inj hx
      rw [← Loop.pure_ok.1 h]
      exact stamped_effect hl he (fun _ => rfl) rfl rfl rfl

theorem setExpiration_effect {uuid : Uuid} {when now : NaiveDateTime} (hl : Linked db)
    (h : setExpiration db uuid when now = .ok db') : Effect (.setExpiration uuid when now) db db' := by
  simp only [setExpiration, Loop.bind_ok] at h
  obtain ⟨id, hid, h⟩ := h
  obtain ⟨rfl, e, he⟩ := findEntryId_entry hid
  simp only [he] at h
  rw [← Loop.pure_ok.1 h]
  exact stamped_effect hl he (fun _ => rfl) rfl rfl rfl

theorem clearExpiration_effect {uuid : Uuid} {now : NaiveDateTime} (hl : Linked db)
    (h : clearExpiration db uuid now = .ok db') : Effect (.clearExpiration uuid now) db db' := by
  simp only [clearExpiration, Loop.bind_ok] at h
  obtain ⟨id, hid, h⟩ := h
  obtain ⟨rfl, e, he⟩ := findEntryId_entry hid
  simp only [he] at h
  rw [← Loop.pure_ok.1 h]
  exact stamped_effect hl he (fun _ => rfl) rfl rfl rfl

theorem updateEntry_effect {uuid : Uuid} {f : Version → Except VaultError (HashMap String (Value String) × List String)}
    {now : NaiveDateTime} (hl : Linked db) (h : updateEntry db uuid f now = .ok db') :
    Effect (.updateEntry uuid f now) db db' := by
  simp only [updateEntry, Loop.bind_ok] at h
  obtain ⟨id, hid, h⟩ := h
  obtain ⟨rfl, e, he⟩ := findEntryId_entry hid
  simp only [he, Loop.bind_ok] at h
  obtain ⟨⟨fields, tags⟩, -, h⟩ := h
  rw [← Loop.pure_ok.1 h]
  exact .modifyEntry hl he (fun e => (recordHistory_same (historyCap db) e).1) (.recorded rfl rfl rfl rfl)

theorem purgeEntry_effect {uuid : Uuid} {now : NaiveDateTime} (hl : Linked db)
    (h : purgeEntry env db uuid now = .ok (.ok db')) (hcall : call.Removes db uuid) : Effect call db db' := by
  have linked := (purgeEntry_ok hl h).1
  unfold purgeEntry at h
  split at h
  · cases h
  rename_i id hid
  obtain ⟨rfl, e, he⟩ := findEntryId_entry hid
  obtain ⟨t, ht, h⟩ := Loop.bind_ok.1 h
  obtain rfl := Except.ok.inj (Loop.pure_ok.1 h)
  obtain ⟨-, -, -, hentries, hdeleted⟩ := removeEntry_ok ht
  have hmeta : t.meta = db.meta := (removeEntry_meta ht).trans rfl
  have entry : ∀ i, t.entry i = if i = id then none else db.entry i := fun i => by
    rw [Database.entry, hentries, Finmap.lookup_erase_eq]; rfl
  refine ⟨linked, fun i => ?_, fun i hi => ?_, fun i hi hn => ?_, fun _ => historyCap_congr hmeta⟩
  · rw [entry]
    split
    · subst_vars
      rw [he]
      exact .removed hcall
    · exact .refl _
  · rw [hdeleted]
    exact Finmap.mem_insert.2 (.inr hi)
  · rw [hdeleted]
    refine Finmap.mem_insert.2 (.inl ?_)
    by_contra hne
    obtain ⟨x, hx⟩ := (mem_entries db).1 hi
    exact hn ((mem_entries t).2 ⟨x, by rw [entry, if_neg hne, hx]⟩)

theorem addAttachment_effect {uuid : Uuid} {name : String} {bytes : Bytes} {now : NaiveDateTime} (hl : Linked db)
    (h : Vault.addAttachment db uuid name bytes now = .ok (.ok db')) :
    Effect (.addAttachment uuid name bytes now) db db' := by
  obtain ⟨t, ht, rfl⟩ := addAttachment_vault_ok h
  have edit := (addAttachment_attachmentEdit ht).trans
    (modifyEntry_attachmentEdit t uuid (f := modifiedAt now) fun _ => rfl)
  have hmeta : t.meta = db.meta := addAttachment_meta ht
  obtain ⟨e, m, he, he', others, -⟩ := addAttachment_ok ht
  refine .one (x := modifiedAt now { e with attachments := m }) (edit.sameTree.linkedBut hl) (fun i hi => ?_) he ?_
    edit.deletedObjects (historyCap_congr hmeta) (.stamped rfl rfl rfl)
  · rw [entry_modifyEntry, if_neg hi, others i hi]
  · rw [entry_modifyEntry, if_pos rfl, he']; rfl

theorem removeAttachment_effect {uuid : Uuid} {name : String} {now : NaiveDateTime} (hl : Linked db)
    (h : Vault.removeAttachment db uuid name now = .ok (.ok db')) :
    Effect (.removeAttachment uuid name now) db db' := by
  obtain ⟨t, ht, rfl⟩ := removeAttachment_vault_ok h
  have edit := (removeAttachmentByName_attachmentEdit ht).trans
    (modifyEntry_attachmentEdit t uuid (f := modifiedAt now) fun _ => rfl)
  have hmeta : t.meta = db.meta := removeAttachmentByName_meta ht
  obtain ⟨e, m, he, he', others, -⟩ := removeAttachmentByName_ok ht
  refine .one (x := modifiedAt now { e with attachments := m }) (edit.sameTree.linkedBut hl) (fun i hi => ?_) he ?_
    edit.deletedObjects (historyCap_congr hmeta) (.stamped rfl rfl rfl)
  · rw [entry_modifyEntry, if_neg hi, others i hi]
  · rw [entry_modifyEntry, if_pos rfl, he']; rfl

/-! ## Moves of entries -/

/-- A tracked move to a group that is there is not refused. -/
theorem trackedMove_ok {group : GroupId} {now : NaiveDateTime} (hg : group ∈ db.groups)
    (h : trackedMove db id group now = .ok (r, db')) : r = .ok () ∧ trackedMoveTo db id group now = .ok (some db') := by
  simp only [trackedMove, Loop.bind_ok] at h
  obtain ⟨e, he, o, ho, h⟩ := h
  cases o with
  | none =>
    unfold moveEntryTo at ho
    rw [if_pos hg] at ho
    simp only [Loop.bind_ok, Loop.pure_ok, reduceCtorEq, and_false, exists_false] at ho
  | some t =>
    obtain ⟨rfl, rfl⟩ := Prod.mk.inj (Loop.pure_ok.1 h)
    refine ⟨rfl, ?_⟩
    simp only [trackedMoveTo, Loop.bind_ok]
    exact ⟨e, he, some t, ho, rfl⟩

theorem trackedMoveTo_meta {group : GroupId} {now : NaiveDateTime}
    (h : trackedMoveTo db id group now = .ok (some db')) :
    db'.meta = db.meta := by
  simp only [trackedMoveTo, Loop.bind_ok] at h
  obtain ⟨e, -, o, ho, h⟩ := h
  cases o with
  | none => cases h
  | some t =>
    obtain ⟨-, x, -, rfl⟩ := moveEntryTo_ok ho
    obtain rfl := Option.some.inj (Loop.pure_ok.1 h)
    rfl

/-- A tracked move, after edits that leave the entries alone. -/
theorem tracked_effect {group : GroupId} {now : NaiveDateTime} (hl : Linked t) (entries : t.entries = db.entries)
    (tombstones : t.deletedObjects = db.deletedObjects) (cap : historyCap t = historyCap db)
    (hcall : call.Relocates db id) (h : trackedMoveTo t id group now = .ok (some db')) : Effect call db db' := by
  have entry : ∀ i, t.entry i = db.entry i := fun i => by simp only [Database.entry, entries]
  obtain ⟨e, he, round, -, hdel, -, he'⟩ := trackedMoveTo_ok hl h
  exact .one round.linked (fun i hi => (round.others i hi).trans (entry i)) ((entry id).symm.trans he) he'
    (hdel.trans tombstones) ((historyCap_congr (trackedMoveTo_meta h)).trans cap) (.relocated hcall rfl rfl)

/-- What making sure of a bin does. -/
structure Binned (db : Database) (fresh : GroupId) (t : Database) (bin : GroupId) : Prop where
  linked : Linked t
  mem : bin ∈ t.groups
  kept : ∀ i ∈ db.groups, i ∈ t.groups
  root : t.root = db.root
  entries : t.entries = db.entries
  tombstones : t.deletedObjects = db.deletedObjects
  cap : historyCap t = historyCap db
  was : (t = db ∧ recycleBin db = some bin) ∨
    (bin = fresh ∧ recycleBin db = none ∧ t.parentOf = Function.update db.parentOf fresh (some db.root))

theorem binned {fresh bin : GroupId} {now : Nat → NaiveDateTime} (hl : Linked db) (hfresh : fresh ∉ db.groups)
    (h : recycleBinGroupIdOrCreate db fresh now = (t, bin)) : Binned db fresh t bin := by
  cases hbin : recycleBin db with
  | some b =>
    unfold recycleBinGroupIdOrCreate at h
    rw [hbin] at h
    obtain ⟨rfl, rfl⟩ := Prod.mk.inj h
    have mem : b ∈ db.groups := by
      obtain ⟨-, hb⟩ := Option.filter_eq_some_iff.1 hbin
      simpa using hb
    exact ⟨hl, mem, fun _ hi => hi, rfl, rfl, rfl, rfl, .inl ⟨rfl, hbin⟩⟩
  | none =>
    obtain ⟨linked, mem, parentOf, -⟩ := newBin_linked now hl hbin hfresh
    rw [h] at linked mem parentOf
    unfold recycleBinGroupIdOrCreate at h
    rw [hbin] at h
    obtain ⟨ht, rfl⟩ := Prod.mk.inj h
    exact ⟨linked, (mem fresh).2 (.inl rfl), fun i hi => (mem i).2 (.inr hi), by rw [← ht]; rfl, by rw [← ht]; rfl,
      by rw [← ht]; rfl, by rw [← ht]; rfl, .inr ⟨rfl, hbin, parentOf⟩⟩

theorem moveEntry_effect {uuid newGroup : Uuid} {now : NaiveDateTime} (hl : Linked db)
    (h : Vault.moveEntry db uuid newGroup now = .ok (r, db')) :
    Effect (.moveEntry uuid newGroup now) db db' ∧ (∀ e, r = .error e → db' = db) := by
  unfold Vault.moveEntry at h
  split at h
  · obtain ⟨rfl, rfl⟩ := Prod.mk.inj (Loop.pure_ok.1 h)
    exact ⟨.refl hl, fun _ _ => rfl⟩
  · obtain ⟨rfl, rfl⟩ := Prod.mk.inj (Loop.pure_ok.1 h)
    exact ⟨.refl hl, fun _ _ => rfl⟩
  · rename_i id group hid hgroup
    obtain ⟨-, rfl⟩ := findEntryId_ok hid
    obtain ⟨hmem, rfl⟩ := findGroupId_ok hgroup
    obtain ⟨rfl, moved⟩ := trackedMove_ok hmem h
    exact ⟨tracked_effect hl rfl rfl rfl ⟨rfl, hmem⟩ moved, fun _ he => nomatch he⟩

theorem deleteEntry_effect {uuid : Uuid} {fresh : GroupId} {now : Nat → NaiveDateTime} (hl : Linked db)
    (hfresh : fresh ∉ db.groups) (h : Vault.deleteEntry env db uuid fresh now = .ok (r, db')) :
    Effect (.deleteEntry env uuid fresh now) db db' ∧ (∀ e, r = .error e → db' = db) := by
  unfold Vault.deleteEntry at h
  split at h
  · rename_i hoff
    obtain ⟨x, hx, h⟩ := Loop.bind_ok.1 h
    have h := Loop.pure_ok.1 h
    refine ⟨leaves_effect hl h fun t ht => purgeEntry_effect hl (ht ▸ hx) ⟨rfl, ?_⟩, fun e he =>
      leaves_refused (he ▸ h)⟩
    cases hset : db.meta.recyclebinEnabled with
    | none => rw [hset] at hoff; cases hoff
    | some b => rw [hset] at hoff; exact congrArg some hoff
  rename_i hon
  split at h
  · obtain ⟨rfl, rfl⟩ := Prod.mk.inj (Loop.pure_ok.1 h)
    exact ⟨.refl hl, fun _ _ => rfl⟩
  rename_i id hid
  obtain ⟨-, rfl⟩ := findEntryId_ok hid
  cases hbin : recycleBinGroupIdOrCreate db fresh now with
  | mk t bin =>
    have made := binned hl hfresh hbin
    simp only [hbin, Loop.bind_ok, expect_ok] at h
    obtain ⟨e, he, h⟩ := h
    have home : db.homeOf id = some e.parent := by
      rw [← homeOf_of_entry he]
      simp only [homeOf, Database.entry, made.entries]
    split at h
    · obtain ⟨rfl, rfl⟩ := Prod.mk.inj (Loop.pure_ok.1 h)
      exact ⟨.of_entries made.linked made.entries made.tombstones made.cap, fun _ he => by cases he⟩
    · rename_i hne
      obtain ⟨rfl, moved⟩ := trackedMove_ok made.mem h
      refine ⟨tracked_effect made.linked made.entries made.tombstones made.cap ⟨rfl, by simpa using hon, ?_⟩ moved,
        fun _ he => by cases he⟩
      rcases made.was with ⟨-, hsome⟩ | ⟨-, hnone, -⟩
      · rw [home, hsome]
        exact fun heq => hne (Option.some.inj heq)
      · rw [home, hnone]
        exact Option.some_ne_none _

/-! ## Groups -/

theorem createGroup_effect {parent : Uuid} {name : String} {fresh : GroupId} {now : Nat → NaiveDateTime}
    (hl : Linked db)
    (hfresh : fresh ∉ db.groups) (h : Vault.createGroup db parent name fresh now = (r, db')) :
    Effect call db db' ∧ (∀ e, r = .error e → db' = db) := by
  unfold Vault.createGroup at h
  split at h
  · obtain ⟨rfl, rfl⟩ := Prod.mk.inj h
    exact ⟨.refl hl, fun _ _ => rfl⟩
  · rename_i parentId hparent
    obtain ⟨hmem, rfl⟩ := findGroupId_ok hparent
    obtain ⟨rfl, rfl⟩ := Prod.mk.inj h
    set group : Group :=
      { id := fresh
        parent := some parentId
        name := name
        times := { Times.new (now 0) with creation := some (now 1), lastModification := some (now 2) } } with hgroup
    have hadd : db.addGroupWithId parentId fresh group = .ok (addGroup db parentId fresh group) := by
      unfold addGroupWithId addGroup; rw [if_neg hfresh]
    have linked := (@addGroupWithId_linked _ _ _ fresh group hl rfl rfl rfl rfl hmem hadd).1
    exact ⟨.of_entries linked rfl rfl rfl, fun _ he => nomatch he⟩

theorem renameGroup_effect {uuid : Uuid} {newName : String} {now : NaiveDateTime} (hl : Linked db)
    (h : Vault.renameGroup db uuid newName now = (r, db')) : Effect call db db' ∧ (∀ e, r = .error e → db' = db) := by
  unfold Vault.renameGroup at h
  split at h
  · obtain ⟨rfl, rfl⟩ := Prod.mk.inj h
    exact ⟨.refl hl, fun _ _ => rfl⟩
  · rename_i id _
    obtain ⟨rfl, rfl⟩ := Prod.mk.inj h
    have tree := SameTree.modifyGroup db id (f := fun g =>
      { g with name := newName, times := { g.times with lastModification := some now } }) fun _ => rfl
    exact ⟨.of_entries (tree.linkedBut hl) rfl rfl rfl, fun _ he => nomatch he⟩

/-- Why a move of a group is refused. -/
theorem moveGroupTo_refused {group newParent : GroupId} {e : MoveGroupError}
    (h : db.moveGroupTo group newParent = .ok (.error e)) :
    db.parentOf group = none ∨ newParent ∉ db.groups ∨ Below db.parentOf group newParent := by
  simp only [moveGroupTo, Loop.bind_ok, expect_ok] at h
  obtain ⟨g, hg, h⟩ := h
  cases hp : g.parent with
  | none => exact .inl ((parentOf_of_group hg).trans hp)
  | some p =>
    simp only [hp] at h
    split at h
    · exact .inr (.inl ‹_›)
    · simp only [Loop.bind_ok, expect_ok] at h
      obtain ⟨b, hb, h⟩ := h
      cases b with
      | true => exact .inr (.inr (below_of_meetsUpwards hb))
      | false =>
        simp only [Bool.false_eq_true, if_false, Loop.bind_ok, expect_ok, Loop.pure_ok, reduceCtorEq, and_false,
          exists_false] at h

theorem trackedMoveGroupTo_cases {group newParent : GroupId} {now : NaiveDateTime} (hl : Linked db)
    (h : trackedMoveGroupTo db group newParent now = .ok (r, db')) :
    (db' = db ∧ (db.parentOf group = none ∨ newParent ∉ db.groups ∨ Below db.parentOf group newParent)) ∨
    (r = .ok () ∧ Linked db' ∧ db'.entries = db.entries ∧ db'.deletedObjects = db.deletedObjects ∧
      db'.meta = db.meta) := by
  simp only [trackedMoveGroupTo, Loop.bind_ok] at h
  obtain ⟨o, ho, h⟩ := h
  cases o with
  | error e =>
    obtain ⟨rfl, rfl⟩ := Prod.mk.inj (Loop.pure_ok.1 h)
    exact .inl ⟨rfl, moveGroupTo_refused ho⟩
  | ok t =>
    obtain ⟨rfl, rfl⟩ := Prod.mk.inj (Loop.pure_ok.1 h)
    have linked := (moveGroupTo_linked hl ho).1
    have tree := SameTree.modifyGroup t group (f := fun g =>
      { g with times := { g.times with locationChanged := some now } }) fun _ => rfl
    obtain ⟨p, -, -, -, rfl⟩ := moveGroupTo_ok ho
    exact .inr ⟨rfl, tree.linkedBut linked, rfl, rfl, rfl⟩

theorem moveGroup_effect {uuid newParent : Uuid} {now : NaiveDateTime} (hl : Linked db)
    (h : Vault.moveGroup db uuid newParent now = .ok (r, db')) :
    Effect call db db' ∧ (∀ e, r = .error e → db' = db) := by
  have refused : db' = db → Effect call db db' ∧ (∀ e, r = .error e → db' = db) := fun heq =>
    ⟨by rw [heq]; exact .refl hl, fun _ _ => heq⟩
  unfold Vault.moveGroup at h
  split at h
  · exact refused (Prod.mk.inj (Loop.pure_ok.1 h)).2.symm
  · exact refused (Prod.mk.inj (Loop.pure_ok.1 h)).2.symm
  · split at h
    · exact refused (Prod.mk.inj (Loop.pure_ok.1 h)).2.symm
    · split at h
      · exact refused (Prod.mk.inj (Loop.pure_ok.1 h)).2.symm
      · rcases trackedMoveGroupTo_cases hl h with ⟨heq, -⟩ | ⟨rfl, linked, entries, tombstones, hmeta⟩
        · exact refused heq
        · exact ⟨.of_entries linked entries tombstones (historyCap_congr hmeta), fun _ he => nomatch he⟩

theorem binGroup_effect {group fresh : GroupId} {now : Nat → NaiveDateTime} (hl : Linked db)
    (hfresh : fresh ∉ db.groups)
    (hmem : group ∈ db.groups) (hroot : group ≠ db.root) (h : Vault.binGroup db group fresh now = .ok (r, db')) :
    Effect call db db' ∧ (∀ e, r = .error e → db' = db) := by
  unfold Vault.binGroup at h
  cases hbin : recycleBinGroupIdOrCreate db fresh now with
  | mk t bin =>
    have made := binned hl hfresh hbin
    simp only [hbin] at h
    split at h
    · obtain ⟨rfl, rfl⟩ := Prod.mk.inj (Loop.pure_ok.1 h)
      exact ⟨.of_entries made.linked made.entries made.tombstones made.cap, fun _ he => nomatch he⟩
    rcases trackedMoveGroupTo_cases made.linked h with ⟨rfl, why⟩ | ⟨rfl, linked, entries, tombstones, hmeta⟩
    · -- a bin made just now is under the root only, and the root is not moved
      rcases made.was with ⟨rfl, -⟩ | ⟨rfl, -, parentOf⟩
      · exact ⟨.refl hl, fun _ _ => rfl⟩
      exfalso
      have hne : group ≠ bin := by rintro rfl; exact hfresh hmem
      obtain ⟨p, hp⟩ := hl.parent_some hmem hroot
      rcases why with hnone | hgone | hbelow
      · rw [parentOf, Function.update_of_ne hne, hp] at hnone
        cases hnone
      · exact hgone made.mem
      · rcases Below.iff_parent.1 hbelow with heq | ⟨q, hq, hb⟩
        · exact hne heq.symm
        · rw [parentOf, Function.update_self, Option.some.injEq] at hq
          subst hq
          rcases Below.iff_parent.1 hb with heq | ⟨x, hx, -⟩
          · exact hroot heq.symm
          · rw [← made.root, made.linked.root_parent] at hx
            cases hx
    · exact ⟨.of_entries linked (entries.trans made.entries) (tombstones.trans made.tombstones)
        ((historyCap_congr hmeta).trans made.cap), fun _ he => nomatch he⟩

theorem deleteGroup_effect {uuid : Uuid} {behavior : Vault.GroupDeleteBehavior} {fresh : GroupId}
    {now : Nat → NaiveDateTime} (hl : Linked db) (hfresh : fresh ∉ db.groups)
    (h : Vault.deleteGroup db uuid behavior fresh now = .ok (r, db')) :
    Effect call db db' ∧ (∀ e, r = .error e → db' = db) := by
  have refused : db' = db → Effect call db db' ∧ (∀ e, r = .error e → db' = db) := fun heq =>
    ⟨by rw [heq]; exact .refl hl, fun _ _ => heq⟩
  unfold Vault.deleteGroup at h
  split at h
  · exact refused (Prod.mk.inj (Loop.pure_ok.1 h)).2.symm
  rename_i group hgroup
  obtain ⟨hmem, rfl⟩ := findGroupId_ok hgroup
  split at h
  · exact refused (Prod.mk.inj (Loop.pure_ok.1 h)).2.symm
  rename_i hroot
  cases behavior with
  | refuse =>
    dsimp only at h
    split at h
    · exact refused (Prod.mk.inj (Loop.pure_ok.1 h)).2.symm
    · split at h
      · exact refused (Prod.mk.inj (Loop.pure_ok.1 h)).2.symm
      · exact binGroup_effect hl hfresh hmem hroot h
  | recurse => exact binGroup_effect hl hfresh hmem hroot h

/-! ## Every call -/

/-- What a call does, and that a refused one leaves the database alone. -/
theorem run_effect (hl : Linked db) (hsound : call.Sound db) (h : call.run db = .ok (r, db')) :
    Effect call db db' ∧ (∀ e, r = .error e → db' = db) := by
  have left : ∀ {x : Except VaultError Database}, leaves db x = (r, db') → (∀ t, x = .ok t → Effect call db t) →
      Effect call db db' ∧ (∀ e, r = .error e → db' = db) := fun hx heffect =>
    ⟨leaves_effect hl hx heffect, fun e he => leaves_refused (he ▸ hx)⟩
  cases call with
  | addEntry group draft fresh now =>
    refine left (Except.ok.inj h) fun t ht => ?_
    cases hadd : addEntry db group draft fresh now with
    | error e => rw [hadd] at ht; cases ht
    | ok x =>
      rw [hadd] at ht
      obtain rfl := Except.ok.inj ht
      exact addEntry_effect hl hsound hadd
  | editEntry uuid edit now => exact left (Except.ok.inj h) fun t ht => editEntry_effect hl ht
  | updateEntry uuid f now => exact left (Except.ok.inj h) fun t ht => updateEntry_effect hl ht
  | moveEntry uuid newGroup now => exact moveEntry_effect hl h
  | deleteEntry env uuid fresh now => exact deleteEntry_effect hl hsound h
  | purgeEntry env uuid now =>
    obtain ⟨x, hx, h⟩ := Loop.bind_ok.1 h
    exact left (Except.ok.inj h) fun t ht => purgeEntry_effect hl (ht ▸ hx) rfl
  | createGroup parent name fresh now => exact createGroup_effect hl hsound (Except.ok.inj h)
  | renameGroup uuid newName now => exact renameGroup_effect hl (Except.ok.inj h)
  | moveGroup uuid newParent now => exact moveGroup_effect hl h
  | deleteGroup uuid behavior fresh now => exact deleteGroup_effect hl hsound h
  | setExpiration uuid when now => exact left (Except.ok.inj h) fun t ht => setExpiration_effect hl ht
  | clearExpiration uuid now => exact left (Except.ok.inj h) fun t ht => clearExpiration_effect hl ht
  | addAttachment uuid name bytes now =>
    obtain ⟨x, hx, h⟩ := Loop.bind_ok.1 h
    exact left (Except.ok.inj h) fun t ht => addAttachment_effect hl (ht ▸ hx)
  | removeAttachment uuid name now =>
    obtain ⟨x, hx, h⟩ := Loop.bind_ok.1 h
    exact left (Except.ok.inj h) fun t ht => removeAttachment_effect hl (ht ▸ hx)
  | setMaxAttachmentBytes n =>
    refine left (Except.ok.inj h) fun t ht => ?_
    unfold Falach.setMaxAttachmentBytes at ht
    split at ht
    · cases ht
    · obtain rfl := Except.ok.inj ht
      have tree : SameTree db { db with «meta» := { db.meta with
          customData := db.meta.customData.insert maxAttachmentBytesKey
            { value := some (.string (toString n)), lastModificationTime := none } } } := .of_eq rfl rfl rfl
      exact .of_entries (tree.linkedBut hl) rfl rfl rfl
  | setMaxHistoryPerEntry n =>
    have h := Except.ok.inj h
    unfold Vault.setMaxHistoryPerEntry at h
    split at h
    · obtain ⟨rfl, rfl⟩ := Prod.mk.inj h
      have tree : SameTree db { db with «meta» := { db.meta with historyMaxItems := some n } } := .of_eq rfl rfl rfl
      refine ⟨⟨tree.linkedBut hl, fun i => .refl _, fun i hi => hi, fun i hi hn => absurd hi hn, fun hcall => ?_⟩,
        fun _ he => nomatch he⟩
      exact absurd rfl (hcall n)
    · obtain ⟨rfl, rfl⟩ := Prod.mk.inj h
      exact ⟨.refl hl, fun _ _ => rfl⟩

end Falach
