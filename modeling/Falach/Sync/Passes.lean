import Falach.Sync.Walk
/-!
# The passes after the merge

The backfill only puts versions in front of histories, and the attachment passes only rewrite attachments and
modification times. So what the merge made of an entry's value and what the backfill kept is still there at the end.
-/

namespace Falach

open Keepass

variable {env : Env} {db db' localDb remote : Database}

/-! ## Backfill -/

/-- `db'` is `db` with versions put in front of histories. -/
structure HistoryGrows (db db' : Database) : Prop where
  groups : db'.groups = db.groups
  root : db'.root = db.root
  deletedObjects : db'.deletedObjects = db.deletedObjects
  attachments : db'.attachments = db.attachments
  mem : ∀ id, id ∈ db'.entries ↔ id ∈ db.entries
  entry : ∀ id e', db'.entry id = some e' → ∃ e, db.entry id = some e ∧ e'.toVersion = e.toVersion ∧
    e.history.getD [] <:+ e'.history.getD []

theorem HistoryGrows.refl (db : Database) : HistoryGrows db db :=
  ⟨rfl, rfl, rfl, rfl, fun _ => .rfl, fun _ e' h => ⟨e', h, rfl, List.suffix_refl _⟩⟩

theorem HistoryGrows.trans {a b c : Database} (h : HistoryGrows a b) (h' : HistoryGrows b c) : HistoryGrows a c := by
  refine ⟨h'.groups.trans h.groups, h'.root.trans h.root, h'.deletedObjects.trans h.deletedObjects,
    h'.attachments.trans h.attachments, fun id => (h'.mem id).trans (h.mem id), ?_⟩
  intro id e'' he''
  obtain ⟨e', he', hv', hs'⟩ := h'.entry id e'' he''
  obtain ⟨e, he, hv, hs⟩ := h.entry id e' he'
  exact ⟨e, he, hv'.trans hv, hs.trans hs'⟩

theorem backfill_grows (db : Database) (pre : Entry) : HistoryGrows db (backfill db pre) := by
  unfold backfill
  cases hm : db.entry pre.id with
  | none => exact .refl db
  | some merged =>
    dsimp only
    split
    · refine ⟨rfl, rfl, rfl, rfl, fun id => Finmap.mem_modify, fun id e' he' => ?_⟩
      rw [Database.entry_modifyEntry] at he'
      split at he'
      · subst_vars
        rw [hm, Option.map_some, Option.some.injEq] at he'
        exact ⟨merged, hm, by rw [← he'], by rw [← he']; exact List.suffix_cons _ _⟩
      · exact ⟨e', he', rfl, List.suffix_refl _⟩
    · exact .refl db

/-- `pre` is kept by `e`: its content is current, or the history has it with its modification time. -/
def Keeps (e : Entry) (pre : Version) : Prop :=
  e.contentOnly = pre.contentOnly ∨
    ∃ v ∈ e.history.getD [], v.times.lastModification = pre.times.lastModification ∧ v.contentOnly = pre.contentOnly

theorem historyHasVersion_iff {history : Option (List Version)} {pre : Version} :
    historyHasVersion history pre = true ↔ ∃ v ∈ history.getD [],
      v.times.lastModification = pre.times.lastModification ∧ v.contentOnly = pre.contentOnly := by
  cases history <;> simp [historyHasVersion]

theorem backfill_keeps {pre merged : Entry} (h : (backfill db pre).entry pre.id = some merged) :
    Keeps merged pre.toVersion := by
  unfold backfill at h
  cases hm : db.entry pre.id with
  | none => simp [hm] at h
  | some m =>
    simp only [hm] at h
    split at h
    · rw [Database.entry_modifyEntry, if_pos rfl, hm, Option.map_some, Option.some.injEq] at h
      exact .inr ⟨pre.toVersion, by rw [← h]; exact List.mem_cons_self, rfl, rfl⟩
    · rename_i hno
      rw [hm, Option.some.injEq] at h; subst h
      rcases not_and_or.1 hno with hd | hh
      · exact .inl (not_not.1 hd)
      · exact .inr (historyHasVersion_iff.1 (by simpa using hh))

theorem Keeps.grows {e e' : Entry} {pre : Version} (h : Keeps e pre) (hv : e'.toVersion = e.toVersion)
    (hs : e.history.getD [] <:+ e'.history.getD []) : Keeps e' pre := by
  rcases h with h | ⟨v, hm, hp⟩
  · exact .inl (by rw [hv]; exact h)
  · exact .inr ⟨v, hs.subset hm, hp⟩

theorem backfillLostVersions_grows (pres : List Entry) (db : Database) :
    HistoryGrows db (backfillLostVersions db pres) := by
  induction pres generalizing db with
  | nil => exact .refl db
  | cons pre pres ih => exact (backfill_grows db pre).trans (ih (backfill db pre))

theorem backfillLostVersions_keeps {pres : List Entry} {pre merged : Entry} (hp : pre ∈ pres)
    (h : (backfillLostVersions db pres).entry pre.id = some merged) : Keeps merged pre.toVersion := by
  induction pres generalizing db with
  | nil => cases hp
  | cons x pres ih =>
    rcases List.mem_cons.1 hp with rfl | hp
    · obtain ⟨e, he, hv, hs⟩ := (backfillLostVersions_grows pres (backfill db pre)).entry pre.id merged h
      exact (backfill_keeps he).grows hv hs
    · exact ih hp h

/-! ## Attachment passes -/

/-- The part of an entry that the attachment passes do not write. -/
def fixedPart (e : Entry) : Entry :=
  { e with attachments := ∅, times := { e.times with lastModification := none } }

/-- `db'` is `db` with other attachments and other modification times. -/
structure AttachmentEdit (db db' : Database) : Prop where
  groups : db'.groups = db.groups
  root : db'.root = db.root
  deletedObjects : db'.deletedObjects = db.deletedObjects
  entry : ∀ id, (db'.entry id).map fixedPart = (db.entry id).map fixedPart

theorem AttachmentEdit.refl (db : Database) : AttachmentEdit db db := ⟨rfl, rfl, rfl, fun _ => rfl⟩

theorem AttachmentEdit.trans {a b c : Database} (h : AttachmentEdit a b) (h' : AttachmentEdit b c) :
    AttachmentEdit a c :=
  ⟨h'.groups.trans h.groups, h'.root.trans h.root, h'.deletedObjects.trans h.deletedObjects,
    fun id => (h'.entry id).trans (h.entry id)⟩

theorem modifyEntry_attachmentEdit (db : Database) (id : EntryId) {f : Entry → Entry}
    (hf : ∀ e, fixedPart (f e) = fixedPart e) : AttachmentEdit db (db.modifyEntry id f) := by
  refine ⟨rfl, rfl, rfl, fun i => ?_⟩
  rw [Database.entry_modifyEntry]
  split
  · subst_vars
    rw [Option.map_map]
    exact Option.map_congr fun e _ => hf e
  · rfl

theorem dropReference_attachmentEdit (db : Database) (id : EntryId) (att : AttachmentId) :
    AttachmentEdit db (db.dropReference id att) :=
  ⟨by simp, by simp, by simp, fun _ => by simp⟩

theorem removeAttachmentById_attachmentEdit (db : Database) (id : EntryId) (att : AttachmentId) :
    AttachmentEdit db (db.removeAttachmentById id att) := by
  refine .trans ?_ (dropReference_attachmentEdit _ id att)
  exact modifyEntry_attachmentEdit db id fun _ => rfl

theorem removeAttachmentByName_attachmentEdit {id : EntryId} {name : String}
    (h : db.removeAttachmentByName id name = .ok db') : AttachmentEdit db db' := by
  simp only [Database.removeAttachmentByName, Loop.bind_ok, expect_ok] at h
  obtain ⟨e, -, h⟩ := h
  split at h
  · rw [Loop.pure_ok.1 h]; exact .refl db'
  · rw [← Loop.pure_ok.1 h]
    refine .trans ?_ (dropReference_attachmentEdit _ id _)
    exact modifyEntry_attachmentEdit db id fun _ => rfl

theorem addAttachment_attachmentEdit {id : EntryId} {name : String} {data : Value Bytes}
    (h : db.addAttachment id name data = .ok db') : AttachmentEdit db db' := by
  simp only [Database.addAttachment, Loop.bind_ok, expect_ok] at h
  obtain ⟨e, -, h⟩ := h
  have pool : ∀ pool, AttachmentEdit db { db with attachments := pool } := fun _ => ⟨rfl, rfl, rfl, fun _ => rfl⟩
  have named := (pool _).trans (modifyEntry_attachmentEdit
    { db with
      attachments := db.attachments.insert db.nextFree { id := db.nextFree, entries := {(id, none)}, data := data } }
    id (f := fun e => { e with attachments := e.attachments.insert name db.nextFree }) fun _ => rfl)
  split at h
  · rw [← Loop.pure_ok.1 h]
    exact named.trans (removeAttachmentById_attachmentEdit _ id _)
  · rw [← Loop.pure_ok.1 h]
    exact named

theorem bump_attachmentEdit (db : Database) (id : EntryId) (now : NaiveDateTime) :
    AttachmentEdit db (bump db id now) := modifyEntry_attachmentEdit db id fun _ => rfl

theorem addAll_attachmentEdit {id : EntryId} {attachments : List (String × Value Bytes)}
    (h : addAll db id attachments = .ok db') : AttachmentEdit db db' :=
  Loop.foldlM_rel AttachmentEdit .refl .trans (fun _ _ _ _ h => addAttachment_attachmentEdit h) h

theorem repairAdded_attachmentEdit {localPre : List Entry} {pre : Entry}
    (h : repairAdded env remote localPre db pre = .ok db') : AttachmentEdit db db' := by
  unfold repairAdded at h
  split at h
  · rw [Loop.pure_ok.1 h]; exact .refl db'
  split at h
  · rw [Loop.pure_ok.1 h]; exact .refl db'
  obtain ⟨as, -, h⟩ := Loop.bind_ok.1 h
  split at h
  · rw [Loop.pure_ok.1 h]; exact .refl db'
  split at h
  · rw [Loop.pure_ok.1 h]; exact .refl db'
  obtain ⟨db₁, ha, h⟩ := Loop.bind_ok.1 h
  rw [← Loop.pure_ok.1 h]
  exact (addAll_attachmentEdit ha).trans (bump_attachmentEdit db₁ _ _)

theorem adoptAttachments_attachmentEdit {remoteRef mergedRef : Entry} {id : EntryId}
    (h : adoptAttachments env remote remoteRef mergedRef db id = .ok db') : AttachmentEdit db db' := by
  simp only [adoptAttachments, Loop.bind_ok] at h
  obtain ⟨wanted, -, held, -, h⟩ := h
  split at h
  · rw [Loop.pure_ok.1 h]; exact .refl db'
  obtain ⟨db₁, hr, h⟩ := Loop.bind_ok.1 h
  obtain ⟨db₂, ha, h⟩ := Loop.bind_ok.1 h
  rw [← Loop.pure_ok.1 h]
  have removed : AttachmentEdit db db₁ :=
    Loop.foldlM_rel AttachmentEdit .refl .trans (fun _ _ _ _ h => removeAttachmentByName_attachmentEdit h) hr
  exact (removed.trans (addAll_attachmentEdit ha)).trans (bump_attachmentEdit db₂ _ _)

theorem propagate_attachmentEdit {localPre : List Entry} {pre : Entry}
    (h : propagate env remote localPre db pre = .ok db') : AttachmentEdit db db' := by
  unfold propagate at h
  split at h
  · rw [Loop.pure_ok.1 h]; exact .refl db'
  split at h
  · rw [Loop.pure_ok.1 h]; exact .refl db'
  split at h
  · exact adoptAttachments_attachmentEdit h
  · rw [Loop.pure_ok.1 h]; exact .refl db'

/-! ## The run of a whole pass -/

/-- The intermediate states of a `reconcile` that returns. -/
structure Stages (env : Env) (localDb remote merged : Database) (delta : EntryDelta) where
  before : HashMap Uuid (Option NaiveDateTime)
  localPre : List Entry
  remotePre : List Entry
  vendored : Database
  repaired : Database
  after : HashMap Uuid (Option NaiveDateTime)
  before_eq : entryTimes env .walkBefore localDb = .ok before
  localPre_eq : collectLiveEntries env .walkLocal localDb = .ok localPre
  remotePre_eq : collectLiveEntries env .walkRemote remote = .ok remotePre
  merge_eq : localDb.merge env remote = .ok vendored
  repair_eq : repairAddedEntryAttachments env remote localPre remotePre
    (backfillLostVersions (backfillLostVersions vendored localPre) remotePre) = .ok repaired
  propagate_eq : propagateBothSideAttachments env remote localPre remotePre repaired = .ok merged
  after_eq : entryTimes env .walkAfter merged = .ok after
  delta_eq : delta = deltaBetween before after

theorem reconcile_stages {merged : Database} {delta : EntryDelta}
    (h : reconcile env localDb remote = .ok (merged, delta)) :
    Nonempty (Stages env localDb remote merged delta) := by
  simp only [reconcile, Loop.bind_ok, Loop.pure_ok, Prod.mk.injEq] at h
  obtain ⟨before, hb, lp, hl, rp, hr, v, hv, rep, hrep, pr, hpr, after, ha, rfl, rfl⟩ := h
  exact ⟨⟨before, lp, rp, v, rep, after, hb, hl, hr, hv, hrep, hpr, ha, rfl⟩⟩

namespace Stages

variable {merged : Database} {delta : EntryDelta} (s : Stages env localDb remote merged delta)

/-- The database after both backfills. -/
def backfilled : Database := backfillLostVersions (backfillLostVersions s.vendored s.localPre) s.remotePre

theorem backfilled_grows : HistoryGrows s.vendored s.backfilled :=
  (backfillLostVersions_grows s.localPre s.vendored).trans (backfillLostVersions_grows s.remotePre _)

theorem repaired_edit : AttachmentEdit s.backfilled s.repaired :=
  Loop.foldlM_rel AttachmentEdit .refl .trans (fun _ _ _ _ h => repairAdded_attachmentEdit h) s.repair_eq

theorem merged_edit : AttachmentEdit s.backfilled merged :=
  s.repaired_edit.trans
    (Loop.foldlM_rel AttachmentEdit .refl .trans (fun _ _ _ _ h => propagate_attachmentEdit h) s.propagate_eq)

theorem backfilled_keeps {pre e : Entry} (hp : pre ∈ s.localPre ∨ pre ∈ s.remotePre)
    (h : s.backfilled.entry pre.id = some e) : Keeps e pre.toVersion := by
  rcases hp with hp | hp
  · obtain ⟨e', he', hv, hs⟩ := (backfillLostVersions_grows s.remotePre _).entry pre.id e h
    exact (backfillLostVersions_keeps hp he').grows hv hs
  · exact backfillLostVersions_keeps hp h

/-- The entry before the attachment passes. -/
theorem entry_backfilled {id : EntryId} {m : Entry} (h : merged.entry id = some m) :
    ∃ e, s.backfilled.entry id = some e ∧ fixedPart m = fixedPart e := by
  have he := s.merged_edit.entry id
  rw [h, Option.map_some] at he
  obtain ⟨e, he, hf⟩ := Option.map_eq_some_iff.1 he.symm
  exact ⟨e, he, hf.symm⟩

end Stages

/-! ## No current value is lost -/

/-- A version up to its times, its parent and its attachments. -/
def value (v : Version) : Version := { v.contentOnly with parent := 0, attachments := ∅ }

theorem value_of_contentOnly {v w : Version} (h : v.contentOnly = w.contentOnly) : value v = value w := by
  unfold value; rw [h]

theorem value_of_fixedPart {e e' : Entry} (h : fixedPart e = fixedPart e') :
    value e.toVersion = value e'.toVersion ∧ e.history = e'.history := by
  simp only [fixedPart, Entry.mk.injEq, Version.mk.injEq] at h
  obtain ⟨⟨h₁, -, h₂, h₃, h₄, -, h₅, h₆, h₇, h₈, h₉, h₁₀, -⟩, hh⟩ := h
  exact ⟨by simp only [value, Version.contentOnly, h₁, h₂, h₃, h₄, h₅, h₆, h₇, h₈, h₉, h₁₀], hh⟩

/-- Every value that was current on one side is current in the merged entry or in its history. -/
theorem reconcile_keeps_current {merged : Database} {delta : EntryDelta} (hl : Keyed localDb) (hr : Keyed remote)
    (h : reconcile env localDb remote = .ok (merged, delta)) :
    ∀ id m, Live merged id → merged.entry id = some m → ∀ side ∈ [localDb, remote], ∀ pre, Live side id →
      side.entry id = some pre →
        value pre.toVersion = value m.toVersion ∨ ∃ v ∈ m.history.getD [], value v = value pre.toVersion := by
  intro id m _ hm side hside pre hlive hpre
  obtain ⟨s⟩ := reconcile_stages h
  obtain ⟨e, he, hf⟩ := s.entry_backfilled hm
  obtain ⟨hv, hh⟩ := value_of_fixedPart hf
  have collected : pre.id = id ∧ (pre ∈ s.localPre ∨ pre ∈ s.remotePre) := by
    rcases List.mem_pair.1 hside with rfl | rfl
    · obtain ⟨x, hx, hxe⟩ := collectLiveEntries_complete s.localPre_eq hlive
      rw [hpre, Option.some.injEq] at hxe; subst hxe
      exact ⟨hl id pre hpre, .inl hx⟩
    · obtain ⟨x, hx, hxe⟩ := collectLiveEntries_complete s.remotePre_eq hlive
      rw [hpre, Option.some.injEq] at hxe; subst hxe
      exact ⟨hr id pre hpre, .inr hx⟩
  obtain ⟨rfl, hp⟩ := collected
  rcases s.backfilled_keeps hp he with hc | ⟨v, hvm, -, hc⟩
  · exact .inl (by rw [hv]; exact (value_of_contentOnly hc).symm)
  · exact .inr ⟨v, by rw [hh]; exact hvm, value_of_contentOnly hc⟩

/-- A database whose root group `0` holds one entry. -/
def single (e : Entry) : Database where
  config := ⟨.aes 0⟩
  root := 0
  entries := Finmap.singleton e.id e
  groups := Finmap.singleton 0 { id := 0, parent := none, entries := {e.id} }

theorem entry_single_some {e e' : Entry} {id : EntryId} (h : (single e).entry id = some e') : id = e.id ∧ e' = e := by
  obtain rfl : id = e.id := (Finmap.mem_singleton _ _ _).1 (Finmap.mem_of_lookup_eq_some h)
  have : (single e).entry e.id = some e := Finmap.lookup_singleton_eq
  rw [this, Option.some.injEq] at h
  exact ⟨rfl, h.symm⟩

theorem single_keyed (e : Entry) : Keyed (single e) := by
  intro id e' h
  obtain ⟨rfl, rfl⟩ := entry_single_some h
  rfl

theorem single_live (e : Entry) : Live (single e) e.id := ⟨0, _, .root, rfl, Finset.mem_singleton_self _⟩

def titled (title : String) (time : NaiveDateTime) : Entry where
  id := 5
  parent := 0
  fields := Finmap.singleton "Title" (.unprotected title)
  times := { lastModification := some time }

/-- The remote edit is newer: its title is current, and the local title is kept. -/
theorem reconcile_keeps_current_edited :
    let merged := { titled "remote" 20 with history := some [(titled "local" 10).toVersion] }
    ∀ side ∈ [single (titled "local" 10), single (titled "remote" 20)], ∀ pre, Live side 5 → side.entry 5 = some pre →
      value pre.toVersion = value merged.toVersion ∨ ∃ v ∈ merged.history.getD [], value v = value pre.toVersion := by
  intro merged
  have run : reconcile (Env.inOrder 1000) (single (titled "local" 10)) (single (titled "remote" 20)) =
      .ok (single merged, { modified := [5] }) := by decide +kernel
  exact reconcile_keeps_current (single_keyed _) (single_keyed _) run 5 merged (single_live merged)
    Finmap.lookup_singleton_eq

end Falach
