import Falach.Tui.Edits
import Falach.Tui.Reachable
import Falach.Vault.Effects
/-!
# Operations on the marked entries

A bulk operation checks all marked entries, calls the vault once for each of them, and saves once. What it leaves when
the save fails is what the calls have made of the vault in memory.
-/

namespace Falach.Tui

open Keepass Database Program

variable {Form : Type}

/-! ## The operations -/

inductive BulkOp where
  | move (target : Uuid)
  | tag (action : TagAction) (text : String)
  | delete

def App.bulkOp (fe : Frontend Form) (app : App Form) : BulkOp → Ui (App Form)
  | .move target => app.applyMoveToGroup target
  | .tag action text => app.applyTag action text
  | .delete => app.performBulkDelete fe app.markedUuids

namespace BulkOp

def tagEdit (text : String) : TagAction → ViewEdit
  | .add => .addTag text
  | .remove => .removeTag text

/-- The call of one entry. -/
def call : BulkOp → Uuid → Draw → VaultCall
  | .move target, uuid, draw => .moveEntry uuid target (draw.now 0)
  | .tag action text, uuid, draw =>
    .updateEntry uuid (fun version => .ok (applyEdits [tagEdit text action] version)) (draw.now 0)
  | .delete, uuid, draw => .deleteEntry draw.env uuid draw.group draw.now

/-- The operation cannot be done in this vault, whatever is marked. -/
def Invalid (db : Database) : BulkOp → Prop
  | .move target => target ∉ db.groups
  | .tag _ text => text.contains ';' = true
  | .delete => False

/-- The operation is refused before its first call. -/
def Refused (op : BulkOp) (db : Database) (marked : List Uuid) : Prop :=
  op.Invalid db ∨ ∃ uuid ∈ marked, uuid ∉ db.entries

/-- Deleted entries go to a recycle bin. -/
def BinOn (db : Database) : Prop := db.meta.recyclebinEnabled.getD true = true

/-- The operation was applied to the entry. -/
def Applied (db : Database) (uuid : Uuid) : BulkOp → Prop
  | .move target => ∃ e, db.entry uuid = some e ∧ e.parent = target
  | .tag action text => ∃ e, db.entry uuid = some e ∧ (text ∈ e.tags ↔ action = .add)
  | .delete =>
    (¬ BinOn db → db.entry uuid = none) ∧
    (BinOn db → ∃ e bin, db.entry uuid = some e ∧ recycleBin db = some bin ∧ e.parent = bin)

/-- An update puts a version into the history and takes one out that is the same. -/
def HistoryStays (e : Entry) : HistoryCap → Prop
  | .disabled => True
  | .unlimited => False
  | .max n => ∃ history, e.history = some history ∧ (e.toVersion :: history).take n = history

/-- The call finds the entry as it would leave it. -/
def Idle (db : Database) (uuid : Uuid) (draw : Draw) : BulkOp → Prop
  | .move _ => False
  | .tag action text => ∃ e, db.entry uuid = some e ∧ (text ∈ e.tags ↔ action = .add) ∧
      e.times.lastModification = some (draw.now 0) ∧ HistoryStays e (historyCap db)
  | .delete => BinOn db ∧ ∃ e bin, db.entry uuid = some e ∧ recycleBin db = some bin ∧ e.parent = bin

/-! ## One call -/

variable {op : BulkOp} {db db' db₁ : Database} {uuid : Uuid} {draw : Draw} {r : Except VaultError Unit}

/-- What a call does that is not refused. -/
structure Called (op : BulkOp) (db : Database) (uuid : Uuid) (draw : Draw) (db₁ : Database) : Prop where
  others : ∀ i, i ≠ uuid → db₁.entry i = db.entry i
  valid : ¬ op.Invalid db → ¬ op.Invalid db₁
  applied : op.Applied db₁ uuid
  binOn : BinOn db₁ ↔ BinOn db
  bin : op = .delete → BinOn db → ∀ b, recycleBin db = some b → recycleBin db₁ = some b
  idle : op.Idle db uuid draw → db₁ = db
  busy : db₁.entry uuid = db.entry uuid → op.Idle db uuid draw ∨ op = .delete ∧ BinOn db ∧ recycleBin db = none

theorem trackedMoveTo_spec {id : EntryId} {group : GroupId} {now : NaiveDateTime}
    (h : trackedMoveTo db id group now = .ok (some db')) : ∃ e, db.entry id = some e ∧
      db'.entry id = some (addHistory (relocatedAt now { e with parent := group }) e.toVersion) ∧
      (∀ i, i ≠ id → db'.entry i = db.entry i) ∧ db'.meta = db.meta ∧ ∀ i, i ∈ db'.groups ↔ i ∈ db.groups := by
  have hmeta := trackedMoveTo_meta h
  simp only [trackedMoveTo, Loop.bind_ok, expect_ok] at h
  obtain ⟨e, he, o, ho, h⟩ := h
  cases o with
  | none => cases h
  | some t =>
    obtain ⟨-, e', he', rfl⟩ := moveEntryTo_ok ho
    obtain rfl := Option.some.inj (he.symm.trans he')
    obtain rfl := Option.some.inj (Loop.pure_ok.1 h)
    refine ⟨e, he, ?_, fun i hi => ?_, hmeta, fun i => ?_⟩
    · simp [entry_modifyEntry, he]
    · simp [entry_modifyEntry, hi]
    · simp

theorem historyStays_iff (e : Entry) (cap : HistoryCap) :
    (recordHistory cap e).history = e.history ↔ HistoryStays e cap := by
  cases cap with
  | disabled => exact iff_of_true rfl trivial
  | unlimited =>
    refine iff_of_false (fun h => ?_) id
    cases hold : e.history with
    | none => rw [hold] at h; cases h
    | some old =>
      unfold recordHistory addHistory at h
      dsimp only at h
      rw [hold, Option.getD_some, Option.some.injEq] at h
      have hlen := congrArg List.length h
      simp at hlen
  | max n =>
    have hcut : (recordHistory (.max n) e).history = some ((e.toVersion :: e.history.getD []).take n) := by
      unfold recordHistory pruneHistory addHistory
      dsimp only
      split
      · rfl
      · rename_i hle
        rw [List.take_of_length_le (by simpa using hle)]
    rw [hcut]
    unfold HistoryStays
    cases hold : e.history with
    | none =>
      refine iff_of_false nofun ?_
      rintro ⟨history, h, -⟩
      cases h
    | some old => simp

theorem recordHistory_history (cap : HistoryCap) (e : Entry) :
    recordHistory cap e = { e with history := (recordHistory cap e).history } := by
  cases cap with
  | disabled => rfl
  | unlimited => rfl
  | max n =>
    unfold recordHistory pruneHistory addHistory
    dsimp only
    split <;> rfl

/-- An update leaves an entry as it was if it leaves its fields, tags, time and history so. -/
theorem edited_eq_iff (fields : HashMap String (Value String)) (tags : List String) (now : NaiveDateTime)
    (cap : HistoryCap) (e : Entry) : edited fields tags now (recordHistory cap e) = e ↔
      fields = e.fields ∧ tags = e.tags ∧ e.times.lastModification = some now ∧ HistoryStays e cap := by
  rw [← historyStays_iff, recordHistory_history]
  generalize (recordHistory cap e).history = history
  constructor
  · intro h
    refine ⟨congrArg (fun e : Entry => e.fields) h, congrArg (fun e : Entry => e.tags) h, ?_, congrArg Entry.history h⟩
    exact (congrArg (fun e : Entry => e.times.lastModification) h).symm
  · rintro ⟨rfl, rfl, htime, rfl⟩
    have times : { e.times with lastModification := some now } = e.times := by rw [← htime]
    unfold edited
    dsimp only
    rw [times]

/-- The tags after the edit of the operation, which changes nothing else. -/
theorem applyEdits_tagEdit (action : TagAction) (text : String) (v : Version) :
    (applyEdits [tagEdit text action] v).1 = v.fields ∧
    (text ∈ (applyEdits [tagEdit text action] v).2 ↔ action = .add) ∧
    ((applyEdits [tagEdit text action] v).2 = v.tags ↔ (text ∈ v.tags ↔ action = .add)) := by
  cases action with
  | add =>
    by_cases hmem : text ∈ v.tags
    · have h : applyEdits [tagEdit text .add] v = (v.fields, v.tags) := by
        simp [applyEdits, tagEdit, ViewEdit.apply, hmem]
      rw [h]
      exact ⟨rfl, iff_of_true hmem rfl, iff_of_true rfl (iff_of_true hmem rfl)⟩
    · have h : applyEdits [tagEdit text .add] v = (v.fields, v.tags ++ [text]) := by
        simp [applyEdits, tagEdit, ViewEdit.apply, hmem]
      rw [h]
      refine ⟨rfl, iff_of_true (by simp) rfl, iff_of_false (fun h => ?_) fun h => hmem (h.2 rfl)⟩
      have hlen := congrArg List.length h
      simp at hlen
  | remove =>
    have hno : ¬ TagAction.remove = .add := nofun
    by_cases hmem : text ∈ v.tags
    · have hlen : (v.tags.filter fun tag => tag ≠ text).length ≠ v.tags.length := by
        intro h
        have hall := List.length_filter_eq_length_iff.1 h text hmem
        simp at hall
      have h : applyEdits [tagEdit text .remove] v = (v.fields, v.tags.filter fun tag => tag ≠ text) := by
        unfold applyEdits tagEdit
        dsimp only [List.foldl_cons, List.foldl_nil, ViewEdit.apply]
        rw [if_neg hlen]
      rw [h]
      refine ⟨rfl, iff_of_false (by simp) hno, iff_of_false (fun h => ?_) fun h => hno (h.1 hmem)⟩
      exact hlen (congrArg List.length h)
    · have hlen : (v.tags.filter fun tag => tag ≠ text).length = v.tags.length := by
        refine List.length_filter_eq_length_iff.2 fun tag htag => ?_
        exact decide_eq_true fun h => hmem (h ▸ htag)
      have h : applyEdits [tagEdit text .remove] v = (v.fields, v.tags) := by
        unfold applyEdits tagEdit
        dsimp only [List.foldl_cons, List.foldl_nil, ViewEdit.apply]
        rw [if_pos hlen]
      rw [h]
      exact ⟨rfl, iff_of_false hmem hno, iff_of_true rfl (iff_of_false hmem hno)⟩

/-! Each operation. -/

theorem called_move {target : Uuid} (hvalid : ¬ Invalid db (.move target)) (hmem : uuid ∈ db.entries)
    (h : ((BulkOp.move target).call uuid draw).run db = .ok (r, db₁)) :
    r = .ok () ∧ Called (.move target) db uuid draw db₁ := by
  have hg : target ∈ db.groups := not_not.1 hvalid
  change Vault.moveEntry db uuid target (draw.now 0) = _ at h
  unfold Vault.moveEntry findEntryId findGroupId at h
  rw [if_pos hmem, if_pos hg] at h
  obtain ⟨rfl, moved⟩ := trackedMove_ok hg h
  obtain ⟨e, he, he', others, hmeta, groups⟩ := trackedMoveTo_spec moved
  refine ⟨rfl, others, fun _ h => h ((groups _).2 hg), ⟨_, he', rfl⟩, ?_, nofun, nofun, fun hsame => ?_⟩
  · unfold BinOn
    rw [hmeta]
  · rw [he', he, Option.some.injEq] at hsame
    have hlen := congrArg (fun e => (versions e).length) hsame
    simp [versions, addHistory, relocatedAt] at hlen

theorem called_tag {action : TagAction} {text : String} (hmem : uuid ∈ db.entries)
    (h : ((BulkOp.tag action text).call uuid draw).run db = .ok (r, db₁)) :
    r = .ok () ∧ Called (.tag action text) db uuid draw db₁ := by
  obtain ⟨e, he⟩ := (mem_entries db).1 hmem
  obtain ⟨hfields, happlied, htags⟩ := applyEdits_tagEdit action text e.toVersion
  set made := applyEdits [tagEdit text action] e.toVersion with hmade
  set f : Entry → Entry := fun e => edited made.1 made.2 (draw.now 0) (recordHistory (historyCap db) e) with hf
  have hupdate : updateEntry db uuid (fun version => .ok (applyEdits [tagEdit text action] version)) (draw.now 0) =
      .ok (db.modifyEntry uuid f) := updateEntry_ok _ he rfl
  change (pure (leaves db (updateEntry db uuid _ _)) : Except Fault CallOutcome) = _ at h
  rw [hupdate] at h
  obtain ⟨rfl, rfl⟩ := Prod.mk.inj (Loop.pure_ok.1 h)
  have entry : (db.modifyEntry uuid f).entry uuid = some (f e) := by
    rw [entry_modifyEntry, if_pos rfl, he, Option.map_some]
  have stays : f e = e ↔ Idle db uuid draw (.tag action text) := by
    rw [hf, edited_eq_iff, and_iff_right hfields, htags]
    constructor
    · rintro ⟨ht, htime, hhistory⟩
      exact ⟨e, he, ht, htime, hhistory⟩
    · rintro ⟨e', he', h⟩
      obtain rfl := Option.some.inj (he.symm.trans he')
      exact h
  refine ⟨rfl, fun i hi => by rw [entry_modifyEntry, if_neg hi], id, ⟨f e, entry, happlied⟩, Iff.rfl, nofun,
    fun hidle => ?_, fun hsame => ?_⟩
  · have same := stays.2 hidle
    have entries : db.entries.modify uuid f = db.entries := by
      refine Finmap.ext_lookup fun i => ?_
      have hlookup : db.entries.lookup uuid = some e := he
      rw [Finmap.lookup_modify, hlookup, Option.map_some, same]
      split
      · subst_vars
        exact hlookup.symm
      · rfl
    unfold Database.modifyEntry
    rw [entries]
  · rw [entry, he, Option.some.injEq] at hsame
    exact .inl (stays.1 hsame)

theorem recycleBin_congr (hmeta : db'.meta = db.meta) (hgroups : ∀ i, i ∈ db'.groups ↔ i ∈ db.groups) :
    recycleBin db' = recycleBin db := by
  unfold recycleBin
  rw [hmeta]
  simp only [hgroups]

/-- Making sure of a bin: the entries stay, and the bin is one of the groups. -/
theorem recycleBinOrCreate_spec {fresh bin : GroupId} {now : Nat → NaiveDateTime} {t : Database} (hon : BinOn db)
    (h : recycleBinGroupIdOrCreate db fresh now = (t, bin)) : t.entries = db.entries ∧ bin ∈ t.groups ∧ BinOn t ∧
      recycleBin t = some bin ∧ (t = db ∨ recycleBin db = none) := by
  unfold recycleBinGroupIdOrCreate at h
  cases hbin : recycleBin db with
  | some b =>
    rw [hbin] at h
    obtain ⟨rfl, rfl⟩ := Prod.mk.inj h
    exact ⟨rfl, by simpa using (Option.filter_eq_some_iff.1 hbin).2, hon, hbin, .inl rfl⟩
  | none =>
    rw [hbin] at h
    obtain ⟨rfl, rfl⟩ := Prod.mk.inj h
    have mem : fresh ∈ (addGroup db db.root fresh {
        id := fresh, parent := some db.root, name := recycleBinName
        times := { Times.new (now 0) with creation := some (now 1), lastModification := some (now 2) } }).groups :=
      Finmap.mem_insert.2 (.inl rfl)
    refine ⟨rfl, mem, rfl, ?_, .inr rfl⟩
    exact Option.filter_eq_some_iff.2 ⟨rfl, by simpa using mem⟩

theorem called_delete (hmem : uuid ∈ db.entries) (h : (BulkOp.delete.call uuid draw).run db = .ok (r, db₁)) :
    r = .ok () ∧ Called .delete db uuid draw db₁ := by
  obtain ⟨e, he⟩ := (mem_entries db).1 hmem
  change Vault.deleteEntry draw.env db uuid draw.group draw.now = _ at h
  unfold Vault.deleteEntry at h
  split at h
  · -- the bin is off: the entry is purged
    rename_i hoff
    have hno : ¬ BinOn db := by rw [BinOn, hoff]; exact nofun
    obtain ⟨x, hx, h⟩ := Loop.bind_ok.1 h
    unfold purgeEntry findEntryId at hx
    rw [if_pos hmem] at hx
    obtain ⟨t, ht, hx⟩ := Loop.bind_ok.1 hx
    obtain rfl := Loop.pure_ok.1 hx
    obtain ⟨rfl, rfl⟩ := Prod.mk.inj (Loop.pure_ok.1 h)
    obtain ⟨-, -, -, hentries, -⟩ := removeEntry_ok ht
    have hmeta : t.meta = db.meta := (removeEntry_meta ht).trans rfl
    have entry : ∀ i, t.entry i = if i = uuid then none else db.entry i := fun i => by
      rw [Database.entry, hentries, Finmap.lookup_erase_eq]
      rfl
    have hflag : BinOn t ↔ BinOn db := by unfold BinOn; rw [hmeta]
    have purged : Applied t uuid .delete := ⟨fun _ => by rw [entry, if_pos rfl], fun hon => absurd (hflag.1 hon) hno⟩
    refine ⟨rfl, fun i hi => by rw [entry, if_neg hi], id, purged, hflag, fun _ hon => absurd hon hno,
      fun hidle => absurd hidle.1 hno, fun hsame => ?_⟩
    rw [entry, if_pos rfl, he] at hsame
    cases hsame
  · -- the bin is on: the entry is moved there, unless it is there
    rename_i hoff
    have hon : BinOn db := by simpa [BinOn] using hoff
    unfold findEntryId at h
    rw [if_pos hmem] at h
    dsimp only at h
    cases hbin : recycleBinGroupIdOrCreate db draw.group draw.now with
    | mk t bin =>
      obtain ⟨hentries, hgroup, htOn, htBin, hwas⟩ := recycleBinOrCreate_spec hon hbin
      have entry : ∀ i, t.entry i = db.entry i := fun i => by simp only [Database.entry, hentries]
      rw [hbin] at h
      obtain ⟨e', he', h⟩ := Loop.bind_ok.1 h
      rw [expect_ok, entry, he, Option.some.injEq] at he'
      subst he'
      -- a bin that was there stays the bin
      have kept : ∀ b, recycleBin db = some b → recycleBin t = some b := by
        intro b hb
        rcases hwas with rfl | hnone
        · exact hb
        · rw [hnone] at hb
          cases hb
      split at h
      · -- in the bin already: nothing is moved, but the bin may just have been made
        rename_i hparent
        obtain ⟨rfl, rfl⟩ := Prod.mk.inj (Loop.pure_ok.1 h)
        have binned : Applied t uuid .delete :=
          ⟨fun hno => absurd htOn hno, fun _ => ⟨e, bin, (entry _).trans he, htBin, hparent⟩⟩
        refine ⟨rfl, fun i _ => entry i, id, binned, iff_of_true htOn hon, fun _ _ => kept, fun hidle => ?_,
          fun _ => ?_⟩
        · obtain ⟨-, e', b, -, hb, -⟩ := hidle
          refine hwas.resolve_right fun hnone => ?_
          rw [hnone] at hb
          cases hb
        · rcases hwas with rfl | hnone
          · exact .inl ⟨hon, e, bin, he, htBin, hparent⟩
          · exact .inr ⟨rfl, hon, hnone⟩
      · rename_i hparent
        obtain ⟨rfl, moved⟩ := trackedMove_ok hgroup h
        obtain ⟨e', he', hnew, others, hmeta, groups⟩ := trackedMoveTo_spec moved
        rw [entry, he, Option.some.injEq] at he'
        subst he'
        have hflag : BinOn db₁ := by unfold BinOn; rw [hmeta]; exact htOn
        have hbin₁ := recycleBin_congr hmeta groups
        have binned : Applied db₁ uuid .delete :=
          ⟨fun hno => absurd hflag hno, fun _ => ⟨_, bin, hnew, hbin₁.trans htBin, rfl⟩⟩
        refine ⟨rfl, fun i hi => (others i hi).trans (entry i), id, binned, iff_of_true hflag hon,
          fun _ _ b hb => hbin₁.trans (kept b hb), fun hidle => ?_, fun hsame => ?_⟩
        · obtain ⟨-, e', b, he', hb, hp⟩ := hidle
          obtain rfl := Option.some.inj (he.symm.trans he')
          obtain rfl := Option.some.inj (htBin.symm.trans (kept b hb))
          exact absurd hp hparent
        · rw [hnew, he, Option.some.injEq] at hsame
          have hlen := congrArg (fun e => (versions e).length) hsame
          simp [versions, addHistory, relocatedAt] at hlen

/-- What a call does, of an entry that is there. -/
theorem called (hvalid : ¬ op.Invalid db) (hmem : uuid ∈ db.entries) (h : (op.call uuid draw).run db = .ok (r, db₁)) :
    r = .ok () ∧ Called op db uuid draw db₁ := by
  cases op with
  | move target => exact called_move hvalid hmem h
  | tag action text => exact called_tag hmem h
  | delete => exact called_delete hmem h

/-! ## All of them -/

/-- The calls, one after the other. -/
inductive Calls (op : BulkOp) : Database → List (Uuid × Draw) → Database → Prop where
  | nil {db : Database} : Calls op db [] db
  | cons {db db₁ db' : Database} {uuid : Uuid} {draw : Draw} {rest : List (Uuid × Draw)} :
      Called op db uuid draw db₁ → Calls op db₁ rest db' → Calls op db ((uuid, draw) :: rest) db'

namespace Calls

variable {pairs : List (Uuid × Draw)}

theorem others (h : Calls op db pairs db') {i : Uuid} (hi : i ∉ pairs.map Prod.fst) : db'.entry i = db.entry i := by
  induction h with
  | nil => rfl
  | cons hc _ ih =>
    rw [List.map_cons, List.mem_cons, not_or] at hi
    exact (ih hi.2).trans (hc.others i hi.1)

theorem binOn (h : Calls op db pairs db') : BinOn db' ↔ BinOn db := by
  induction h with
  | nil => exact Iff.rfl
  | cons hc _ ih => exact ih.trans hc.binOn

theorem bin (h : Calls op db pairs db') (hop : op = .delete) (hon : BinOn db) {b : GroupId}
    (hb : recycleBin db = some b) :
    recycleBin db' = some b := by
  induction h with
  | nil => exact hb
  | cons hc _ ih => exact ih (hc.binOn.2 hon) (hc.bin hop hon b hb)

/-- What was applied to an entry stays so through the calls of others. -/
theorem applied_stays (h : Calls op db pairs db') (huuid : uuid ∉ pairs.map Prod.fst) (ha : op.Applied db uuid) :
    op.Applied db' uuid := by
  have same := h.others huuid
  cases op with
  | move target =>
    obtain ⟨e, he, hp⟩ := ha
    exact ⟨e, same.trans he, hp⟩
  | tag action text =>
    obtain ⟨e, he, ht⟩ := ha
    exact ⟨e, same.trans he, ht⟩
  | delete =>
    refine ⟨fun hoff => same.trans (ha.1 fun hon => hoff (h.binOn.2 hon)), fun hon => ?_⟩
    obtain ⟨e, b, he, hb, hp⟩ := ha.2 (h.binOn.1 hon)
    exact ⟨e, b, same.trans he, h.bin rfl (h.binOn.1 hon) hb, hp⟩

theorem applied (h : Calls op db pairs db') (hn : (pairs.map Prod.fst).Nodup) :
    ∀ uuid ∈ pairs.map Prod.fst, op.Applied db' uuid := by
  induction h with
  | nil => intro uuid hmem; cases hmem
  | @cons db db₁ db' first draw rest hc hrest ih =>
    obtain ⟨hnot, hn⟩ := List.nodup_cons.1 hn
    intro uuid hmem
    rcases List.mem_cons.1 hmem with rfl | hmem
    · exact hrest.applied_stays hnot hc.applied
    · exact ih hn uuid hmem

/-- The calls leave the database as it was if and only if each of them does. -/
theorem eq_iff (h : Calls op db pairs db') (hn : (pairs.map Prod.fst).Nodup) :
    db' = db ↔ ∀ p ∈ pairs, op.Idle db p.1 p.2 := by
  induction h with
  | nil => exact iff_of_true rfl fun p hp => absurd hp List.not_mem_nil
  | @cons db db₁ db' first draw rest hc hrest ih =>
    obtain ⟨hnot, hn⟩ := List.nodup_cons.1 hn
    constructor
    · intro hsame
      have hfirst : db₁.entry first = db.entry first := by
        rw [← hrest.others hnot, hsame]
      -- a bin that was made on the way would be there at the end
      have hidle : op.Idle db first draw := by
        refine (hc.busy hfirst).resolve_right ?_
        rintro ⟨rfl, hon, hnone⟩
        obtain ⟨e, b, -, hb, -⟩ := hc.applied.2 (hc.binOn.2 hon)
        have hb' := hrest.bin rfl (hc.binOn.2 hon) hb
        rw [hsame, hnone] at hb'
        cases hb'
      have hdb := hc.idle hidle
      subst hdb
      intro p hp
      rcases List.mem_cons.1 hp with rfl | hp
      · exact hidle
      · exact (ih hn).1 hsame p hp
    · intro hidle
      have hdb := hc.idle (hidle _ List.mem_cons_self)
      subst hdb
      exact (ih hn).2 fun p hp => hidle p (List.mem_cons_of_mem _ hp)

end Calls

end BulkOp

/-! ## The surroundings -/

/-- What a bulk operation was given, and what it had saved. -/
structure BulkLog where
  draws : List Draw := []
  saved : List Vault := []

/-- The surroundings answer a save with `save`; random UUIDs, the clock and the rest are as they may be. -/
def BulkLog.Exec (save : Except VaultError Unit) (log : BulkLog) : (op : AppOp) → AppAnswer op → BulkLog → Prop
  | .draw, draw, log' => log' = { log with draws := log.draws ++ [draw] }
  | .saveVault v, result, log' => result = save ∧ log' = { log with saved := log.saved ++ [v] }
  | _, _, log' => log' = log

/-- The operation was applied to all marked entries and saved, and nothing is marked. -/
structure BulkDone (op : BulkOp) (marked : List Uuid) (save : Except VaultError Unit) (log : BulkLog)
    (app' : App Form) :
    Prop where
  save : save = .ok ()
  saved : ∃ v', app'.vault = some v' ∧ log.saved = [v'] ∧ ∀ uuid ∈ marked, op.Applied v'.database uuid
  marks : app'.view.marks = ∅

/-- The vault, the marks, the pins and the recents are as they were. -/
structure BulkUndone (app app' : App Form) : Prop where
  vault : app'.vault = app.vault
  marks : app'.view.marks = app.view.marks
  pins : app'.view.tabs.pinned = app.view.tabs.pinned
  recents : app'.view.recents = app.view.recents

section

variable {op : BulkOp} {save : Except VaultError Unit} {log log' : BulkLog} {panics : BulkLog → AppOp → Prop}
  {fe : Frontend Form} {app app' : App Form} {v v' : Vault} {uuids : List Uuid}

theorem getEntries_ok : v.getEntries uuids = .ok () ↔ ∀ uuid ∈ uuids, uuid ∈ v.database.entries := by
  unfold Vault.getEntries
  induction uuids with
  | nil => exact iff_of_true rfl fun _ h => absurd h List.not_mem_nil
  | cons uuid rest ih =>
    change (((findEntryId v.database uuid).map fun _ => ()) >>= fun _ => rest.forM _) = .ok () ↔ _
    rw [List.forall_mem_cons, ← ih]
    unfold findEntryId
    by_cases h : uuid ∈ v.database.entries
    · rw [if_pos h, and_iff_right h]
      rfl
    · rw [if_neg h]
      exact iff_of_false nofun fun h' => h h'.1

/-- The calls of a bulk operation that is not refused: none of them is. -/
theorem calledEach_run {r : Except VaultError Unit} (hvalid : ¬ op.Invalid v.database)
    (hmem : ∀ uuid ∈ uuids, uuid ∈ v.database.entries) (hn : uuids.Nodup)
    (run : Runs (BulkLog.Exec save) panics log (v.calledEach op.call uuids) log' (.returned (r, v'))) :
    r = .ok () ∧ v'.path = v.path ∧ ∃ draws, draws.length = uuids.length ∧ log'.draws = log.draws ++ draws ∧
      log'.saved = log.saved ∧ BulkOp.Calls op v.database (uuids.zip draws) v'.database := by
  induction uuids generalizing v log with
  | nil =>
    cases run
    exact ⟨rfl, rfl, [], rfl, (List.append_nil _).symm, rfl, .nil⟩
  | cons uuid rest ih =>
    obtain ⟨hnot, hn⟩ := List.nodup_cons.1 hn
    obtain ⟨draw, log₁, rfl, run⟩ := run.request
    obtain ⟨⟨r₁, v₁⟩, log₂, first, run⟩ := run.bind
    unfold Vault.called at first
    cases hcall : (op.call uuid draw).run v.database with
    | error fault =>
      rw [hcall] at first
      cases first
    | ok outcome =>
      rw [hcall] at first
      cases first
      obtain ⟨hr, called⟩ := BulkOp.called hvalid (hmem uuid List.mem_cons_self) hcall
      obtain ⟨r₁, db₁⟩ := outcome
      subst hr
      have hmem₁ : ∀ i ∈ rest, i ∈ db₁.entries := by
        intro i hi
        obtain ⟨e, he⟩ := (mem_entries v.database).1 (hmem i (List.mem_cons_of_mem _ hi))
        exact (mem_entries db₁).2 ⟨e, (called.others i fun h => hnot (h ▸ hi)).trans he⟩
      obtain ⟨hr, hpath, draws, hlen, hdraws, hsaved, calls⟩ := ih (called.valid hvalid) hmem₁ hn run
      refine ⟨hr, hpath, draw :: draws, congrArg (· + 1) hlen, ?_, hsaved, .cons called calls⟩
      rw [hdraws, List.append_assoc]
      rfl

/-- A bulk operation is refused and leaves everything, or all its calls are made. -/
theorem bulk_run {valid : Vault → Except VaultError Unit} {result : Except VaultError Unit} (hv : app.vault = some v)
    (hvalid : valid v = .ok () ↔ ¬ op.Refused v.database uuids) (hn : uuids.Nodup)
    (run : Runs (BulkLog.Exec save) panics log (app.bulk valid op.call uuids) log' (.returned (result, app'))) :
    (op.Refused v.database uuids ∧ (∃ e, result = .error e) ∧ app' = app ∧ log' = log) ∨
    (¬ op.Refused v.database uuids ∧ result = .ok () ∧ ∃ v' draws, app' = app.withVault v' ∧ v'.path = v.path ∧
      draws.length = uuids.length ∧ log'.draws = log.draws ++ draws ∧ log'.saved = log.saved ∧
      BulkOp.Calls op v.database (uuids.zip draws) v'.database) := by
  unfold App.bulk at run
  rw [hv] at run
  cases hok : valid v with
  | error e =>
    simp only [hok] at run
    cases run
    refine .inl ⟨?_, ⟨e, rfl⟩, rfl, rfl⟩
    by_contra hno
    rw [hvalid.2 hno] at hok
    cases hok
  | ok u =>
    simp only [hok] at run
    have hno := hvalid.1 hok
    obtain ⟨hop, hmem⟩ := not_or.1 hno
    push Not at hmem
    obtain ⟨⟨r, v'⟩, log₁, calls, run⟩ := run.bind
    cases run
    obtain ⟨hr, hpath, draws, hlen, hdraws, hsaved, calls⟩ := calledEach_run hop hmem hn calls
    exact .inr ⟨hno, hr, v', draws, rfl, hpath, hlen, hdraws, hsaved, calls⟩

theorem persistUiState_run (run : Runs (BulkLog.Exec save) panics log app.persistUiState log' (.returned app')) :
    app'.vault = app.vault ∧ app'.view = app.view ∧ log' = log := by
  unfold App.persistUiState at run
  split at run
  · obtain ⟨_, log₁, hlog, run⟩ := run.request
    cases run
    exact ⟨rfl, rfl, hlog⟩
  · cases run
    exact ⟨rfl, rfl, rfl⟩

theorem persistUiState_runs (log : BulkLog) (app : App Form) :
    ∃ app', Runs (BulkLog.Exec save) panics log app.persistUiState log (.returned app') := by
  unfold App.persistUiState
  split
  · exact ⟨_, .ask (a := ()) rfl .done⟩
  · exact ⟨_, .done⟩

theorem finishBulkOp_runs (log : BulkLog) (hro : app.readOnly = false) (hv : app.vault = some v) :
    ∃ app' log', Runs (BulkLog.Exec save) panics log (app.finishBulkOp (.ok ())) log' (.returned app') := by
  change ∃ app' log', Runs _ _ log (app.persistVault >>= _) log' (.returned app')
  unfold App.persistVault
  rw [if_neg (by rw [hro]; exact Bool.false_ne_true), hv]
  cases save with
  | error e => exact ⟨_, _, .ask (a := .error e) ⟨rfl, rfl⟩ .done⟩
  | ok u =>
    obtain ⟨app', run⟩ : ∃ app', Runs (BulkLog.Exec (.ok u)) panics { log with saved := log.saved ++ [v] }
        app.unmarked.persistUiState { log with saved := log.saved ++ [v] } (.returned app') := persistUiState_runs _ _
    refine ⟨app', { log with saved := log.saved ++ [v] }, .ask (a := .ok u) ⟨rfl, rfl⟩ ?_⟩
    exact run

/-- The end of a bulk operation: one save, and what comes after it if it succeeds. -/
theorem finish_run {after : App Form → App Form} (hafter : ∀ a, (after a).vault = a.vault ∧ (after a).view.marks = ∅)
    (hv : app.vault = some v)
    (run : Runs (BulkLog.Exec save) panics log (app.thenPersist (.ok ()) >>= fun o => match o with
      | .error _ => return app
      | .ok () => (after app).persistUiState) log' (.returned app')) :
    log'.draws = log.draws ∧
    ((save = .ok () ∧ app.readOnly = false → app'.vault = some v ∧ log'.saved = log.saved ++ [v] ∧
      app'.view.marks = ∅) ∧
      (¬ (save = .ok () ∧ app.readOnly = false) → app' = app ∧ (save = .ok () → log'.saved = log.saved))) := by
  obtain ⟨o, log₁, persist, run⟩ := run.bind
  change Runs _ _ _ app.persistVault _ _ at persist
  unfold App.persistVault at persist
  by_cases hro : app.readOnly = true
  · rw [if_pos hro] at persist
    cases persist
    cases run
    refine ⟨rfl, fun h => ?_, fun _ => ⟨rfl, fun _ => rfl⟩⟩
    rw [hro] at h
    cases h.2
  · rw [if_neg hro, hv] at persist
    obtain ⟨result, log₂, ⟨rfl, rfl⟩, persist⟩ := persist.request
    cases persist
    cases result with
    | error e =>
      cases run
      refine ⟨rfl, fun h => ?_, fun _ => ⟨rfl, fun h => ?_⟩⟩
      · cases h.1
      · cases h
    | ok u =>
      obtain ⟨hvault, hview, rfl⟩ := persistUiState_run run
      refine ⟨rfl, fun _ => ⟨?_, rfl, ?_⟩, fun h => absurd ⟨rfl, by simpa using hro⟩ h⟩
      · rw [hvault, (hafter app).1, hv]
      · rw [hview, (hafter app).2]

theorem forgotten_keeps (app : App Form) (uuids : List Uuid) :
    (app.forgotten fe uuids).vault = app.vault ∧ (app.forgotten fe uuids).view.marks = app.view.marks := by
  unfold App.forgotten
  dsimp only
  split <;> exact ⟨rfl, rfl⟩

/-- The calls and the end of a bulk operation that is not refused, or nothing. -/
structure BulkEnd (op : BulkOp) (save : Except VaultError Unit) (app : App Form) (v : Vault) (log : BulkLog)
    (app' : App Form) (v' : Vault) : Prop where
  accepted : ¬ op.Refused v.database app.markedUuids
  asked : log.draws.length = app.markedUuids.length
  path : v'.path = v.path
  calls : BulkOp.Calls op v.database (app.markedUuids.zip log.draws) v'.database
  done : save = .ok () ∧ app.readOnly = false → app'.vault = some v' ∧ log.saved = [v'] ∧ app'.view.marks = ∅
  failed : ¬ (save = .ok () ∧ app.readOnly = false) → app' = app.withVault v' ∧ (save = .ok () → log.saved = [])

namespace BulkEnd

theorem fst_zip (h : BulkEnd op save app v log app' v') :
    (app.markedUuids.zip log.draws).map Prod.fst = app.markedUuids :=
  List.map_fst_zip (by rw [h.asked])

theorem nodup (h : BulkEnd op save app v log app' v') : ((app.markedUuids.zip log.draws).map Prod.fst).Nodup := by
  rw [h.fst_zip]
  exact Finset.sort_nodup _ _

/-- The operation was applied to all marked entries, in the vault in memory. -/
theorem applied (h : BulkEnd op save app v log app' v') {uuid : Uuid} (huuid : uuid ∈ app.markedUuids) :
    op.Applied v'.database uuid :=
  h.calls.applied h.nodup uuid (by rw [h.fst_zip]; exact huuid)

end BulkEnd

theorem bulk_end {valid : Vault → Except VaultError Unit} (after : App Form → App Form)
    {k : Except VaultError Unit × App Form → Ui (App Form)} (hv : app.vault = some v)
    (hvalid : valid v = .ok () ↔ ¬ op.Refused v.database app.markedUuids)
    (hafter : ∀ a, (after a).vault = a.vault ∧ (after a).view.marks = ∅)
    (hk : ∀ result app₁, k (result, app₁) = app₁.thenPersist result >>= fun o => match o with
      | .error _ => return app₁
      | .ok () => (after app₁).persistUiState)
    (run : Runs (BulkLog.Exec save) panics {} (app.bulk valid op.call app.markedUuids >>= k) log (.returned app')) :
    op.Refused v.database app.markedUuids ∧ app' = app ∨ ∃ v', BulkEnd op save app v log app' v' := by
  have hn : app.markedUuids.Nodup := Finset.sort_nodup _ _
  obtain ⟨⟨result, app₁⟩, log₁, calls, run⟩ := run.bind
  rw [hk] at run
  rcases bulk_run hv hvalid hn calls with
    ⟨hrefused, ⟨e, rfl⟩, rfl, rfl⟩ | ⟨hno, rfl, v', draws, rfl, hpath, hlen, hdraws, hsaved, calls⟩
  · cases run
    exact .inl ⟨hrefused, rfl⟩
  · obtain ⟨hlog, done, failed⟩ := finish_run hafter rfl run
    have hdraws : log.draws = draws := hlog.trans hdraws
    refine .inr ⟨v', hno, by rw [hdraws, hlen], hpath, by rw [hdraws]; exact calls, fun h => ?_, fun h => ?_⟩
    · obtain ⟨hvault, hsaved', hmarks⟩ := done h
      exact ⟨hvault, by rw [hsaved', hsaved]; rfl, hmarks⟩
    · obtain ⟨happ, hnone⟩ := failed h
      exact ⟨happ, fun hok => (hnone hok).trans hsaved⟩

theorem bulkOp_end (hv : app.vault = some v)
    (run : Runs (BulkLog.Exec save) panics {} (app.bulkOp fe op) log (.returned app')) :
    op.Refused v.database app.markedUuids ∧ app' = app ∨ ∃ v', BulkEnd op save app v log app' v' := by
  have entries : (¬ ∃ uuid ∈ app.markedUuids, uuid ∉ v.database.entries) ↔ v.getEntries app.markedUuids = .ok () := by
    rw [getEntries_ok]
    push Not
    exact Iff.rfl
  cases op with
  | move target =>
    refine bulk_end App.unmarked hv ?_ (fun a => ⟨rfl, rfl⟩) (fun result app₁ => rfl) run
    unfold BulkOp.Refused BulkOp.Invalid findGroupId
    rw [not_or, not_not, entries]
    by_cases hg : target ∈ v.database.groups
    · rw [if_pos hg, and_iff_right hg]
      exact Iff.rfl
    · rw [if_neg hg]
      exact iff_of_false (by intro h; cases h) fun h => hg h.1
  | tag action text =>
    change Runs _ _ _ (app.applyTag action text) _ _ at run
    unfold App.applyTag App.tagFrom at run
    by_cases htext : text.contains ';' = true
    · rw [if_pos htext] at run
      cases run
      exact .inl ⟨.inl htext, rfl⟩
    · rw [if_neg htext] at run
      have valid : v.getEntries app.markedUuids = .ok () ↔
          ¬ (BulkOp.tag action text).Refused v.database app.markedUuids := by
        unfold BulkOp.Refused BulkOp.Invalid
        rw [not_or, entries]
        exact (and_iff_right htext).symm
      cases action with
      | add => exact bulk_end App.unmarked hv valid (fun a => ⟨rfl, rfl⟩) (fun result app₁ => rfl) run
      | remove => exact bulk_end App.unmarked hv valid (fun a => ⟨rfl, rfl⟩) (fun result app₁ => rfl) run
  | delete =>
    refine bulk_end (fun a => a.unmarked.forgotten fe app.markedUuids) hv ?_ (fun a => ?_) (fun result app₁ => rfl) run
    · unfold BulkOp.Refused BulkOp.Invalid
      rw [false_or, entries]
    · obtain ⟨hvault, hmarks⟩ := @forgotten_keeps _ fe a.unmarked app.markedUuids
      exact ⟨hvault, hmarks⟩

/-- A bulk operation, for all marks and however the save ends: it is applied to all marked entries, saved, and clears
the marks, or leaves the vault, the marks, the pins and the recents as they were, if and only if it is refused before
its first call, or the save succeeds, or every call finds its entry as it would leave it. -/
theorem bulk_all_or_nothing_iff (hv : app.vault = some v)
    (run : Runs (BulkLog.Exec save) panics {} (app.bulkOp fe op) log (.returned app')) :
    (BulkDone op app.markedUuids save log app' ∨ BulkUndone app app') ↔
      op.Refused v.database app.markedUuids ∨ (save = .ok () ∧ app.readOnly = false) ∨
        ∀ p ∈ app.markedUuids.zip log.draws, op.Idle v.database p.1 p.2 := by
  rcases bulkOp_end hv run with ⟨hrefused, rfl⟩ | ⟨v', hend⟩
  · exact iff_of_true (.inr ⟨rfl, rfl, rfl, rfl⟩) (.inl hrefused)
  have same := hend.calls.eq_iff hend.nodup
  by_cases hsave : save = .ok () ∧ app.readOnly = false
  · obtain ⟨hvault, hsaved, hmarks⟩ := hend.done hsave
    have applied : ∀ uuid ∈ app.markedUuids, op.Applied v'.database uuid := fun uuid huuid => hend.applied huuid
    exact iff_of_true (.inl ⟨hsave.1, ⟨v', hvault, hsaved, applied⟩, hmarks⟩) (.inr (.inl hsave))
  · obtain ⟨rfl, hnone⟩ := hend.failed hsave
    rw [or_iff_right hend.accepted, or_iff_right hsave, ← same]
    constructor
    · rintro (hdone | hundone)
      · obtain ⟨w, -, hsaved, -⟩ := hdone.saved
        rw [hnone hdone.save] at hsaved
        cases hsaved
      · have hvault := hundone.vault
        rw [hv] at hvault
        rw [Option.some.inj hvault]
    · intro hdb
      have hvault : v' = v := congrArg₂ Vault.mk hend.path hdb
      subst hvault
      exact .inr ⟨hv.symm, rfl, rfl, rfl⟩

end

/-! ## A save that fails -/

/-- A vault of one entry and a group beside it. -/
def bulkVault : Vault where
  path := "/a"
  database := {
    config := ⟨.aes 1⟩, root := 0
    groups := ((∅ : HashMap GroupId Group).insert 0 { id := 0, parent := none }).insert 1 { id := 1, parent := some 0 }
    entries := (∅ : HashMap EntryId Entry).insert 5 { id := 5, parent := 0 } }

/-- The entry is marked. -/
def bulkApp : App Unit :=
  smallApp false false .workspace (some bulkVault) "a" { smallView with marks := {5} } { config := .default }

theorem bulkApp_marked : bulkApp.markedUuids = [5] := Finset.sort_singleton _ _

def bulkDraw : Draw := { entry := 7, group := 7, now := fun _ => 9, env := .inOrder 9 }

/-- The marked entry is moved, however the save ends. -/
theorem bulkApp_move_run (save : Except VaultError Unit) :
    ∃ app' log, Runs (BulkLog.Exec save) (fun _ _ => False) {} (bulkApp.bulkOp smallFrontend (.move 1)) log
      (.returned app') := by
  change ∃ app' log, Runs _ _ _ (bulkApp.applyMoveToGroup 1) log (.returned app')
  unfold App.applyMoveToGroup
  rw [bulkApp_marked]
  have finish : ∀ v, ∃ app' log, Runs (BulkLog.Exec save) (fun _ _ => False) { draws := [bulkDraw] }
      ((bulkApp.withVault v).finishBulkOp (.ok ())) log (.returned app') := fun v => finishBulkOp_runs _ rfl rfl
  refine ⟨?app', ?log', .ask (a := bulkDraw) rfl ?run⟩
  case run => exact (finish _).choose_spec.choose_spec

/-- A move whose save fails has moved the entry in the vault that is open, and the next save writes it. -/
theorem failed_move_stays : ¬ ∀ (op : BulkOp) (save : Except VaultError Unit) (app app' : App Unit) (v : Vault)
    (log : BulkLog), app.vault = some v →
    Runs (BulkLog.Exec save) (fun _ _ => False) {} (app.bulkOp smallFrontend op) log (.returned app') →
    BulkDone op app.markedUuids save log app' ∨ BulkUndone app app' := by
  intro hall
  obtain ⟨app', log, run⟩ := bulkApp_move_run (.error (.writeFailed ""))
  rcases bulkOp_end rfl run with ⟨hrefused, -⟩ | ⟨v', hend⟩
  · rw [bulkApp_marked] at hrefused
    rcases hrefused with hinvalid | ⟨uuid, huuid, hgone⟩
    · exact hinvalid (by decide +kernel)
    · obtain rfl := List.mem_singleton.1 huuid
      exact hgone (by decide +kernel)
  · obtain ⟨rfl, -⟩ := hend.failed fun h => by cases h.1
    have marked : 5 ∈ bulkApp.markedUuids := by
      rw [bulkApp_marked]
      exact List.mem_singleton_self _
    obtain ⟨e, he, hp⟩ : BulkOp.Applied v'.database 5 (.move 1) := hend.applied marked
    rcases hall _ _ _ _ _ _ rfl run with hdone | hundone
    · cases hdone.save
    · obtain rfl : v' = bulkVault := Option.some.inj hundone.vault
      have home : (bulkVault.database.entry 5).map (·.parent) = some 0 := by decide +kernel
      rw [he, Option.map_some, hp] at home
      cases home

/-- One that succeeds has done all. -/
theorem bulk_all_or_nothing_iff_move : ∃ app' log,
    BulkDone (.move 1) bulkApp.markedUuids (.ok ()) log app' ∨ BulkUndone bulkApp app' := by
  obtain ⟨app', log, run⟩ := bulkApp_move_run (.ok ())
  exact ⟨app', log, (bulk_all_or_nothing_iff rfl run).2 (.inr (.inl ⟨rfl, rfl⟩))⟩

end Falach.Tui
