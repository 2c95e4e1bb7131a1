import Falach.Core.Attachment
import Falach.Format.XmlDb
import Falach.Sync.Density
/-!
# Attachments over saving and opening

An attachment has a number in memory and a place in the written list, and an entry is written with the number. So what
is read back is the attachment at that place.
-/

namespace Falach

open Keepass Database

/-- The calls that change the entries of a vault, and `reconcile`. -/
inductive VaultOp where
  | addEntry (group : Uuid) (draft : EntryDraft) (fresh : EntryId) (now : Nat → NaiveDateTime)
  | editEntry (uuid : Uuid) (edit : ViewEdit) (now : NaiveDateTime)
  | updateEntry (uuid : Uuid) (f : Version → Except VaultError (HashMap String (Value String) × List String))
      (now : NaiveDateTime)
  | moveEntry (uuid newGroup : Uuid) (now : NaiveDateTime)
  | deleteEntry (env : Env) (uuid fresh : Uuid) (now : Nat → NaiveDateTime)
  | purgeEntry (env : Env) (uuid : Uuid) (now : NaiveDateTime)
  | setExpiration (uuid : Uuid) (when now : NaiveDateTime)
  | clearExpiration (uuid : Uuid) (now : NaiveDateTime)
  | addAttachment (uuid : Uuid) (name : String) (bytes : Bytes) (now : NaiveDateTime)
  | removeAttachment (uuid : Uuid) (name : String) (now : NaiveDateTime)
  | setMaxAttachmentBytes (n : Nat)
  | reconcile (env : Env) (remote : Database)

namespace VaultOp

def run (db : Database) : VaultOp → Except Fault (Except VaultError Database)
  | .addEntry group draft fresh now => return (Falach.addEntry db group draft fresh now).map Prod.fst
  | .editEntry uuid edit now => return Falach.editEntry db uuid edit now
  | .updateEntry uuid f now => return Falach.updateEntry db uuid f now
  | .moveEntry uuid newGroup now => Falach.moveEntry db uuid newGroup now
  | .deleteEntry env uuid fresh now => Falach.deleteEntry env db uuid fresh now
  | .purgeEntry env uuid now => Falach.purgeEntry env db uuid now
  | .setExpiration uuid when now => return Falach.setExpiration db uuid when now
  | .clearExpiration uuid now => return Falach.clearExpiration db uuid now
  | .addAttachment uuid name bytes now => Vault.addAttachment db uuid name bytes now
  | .removeAttachment uuid name now => Vault.removeAttachment db uuid name now
  | .setMaxAttachmentBytes n => return Falach.setMaxAttachmentBytes db n
  | .reconcile env remote => do return .ok (← Falach.reconcile env db remote).1

/-- New UUIDs are new, and what is reconciled with is a database. -/
def Sound (db : Database) : VaultOp → Prop
  | .addEntry _ _ fresh _ => fresh ∉ db.entries
  | .deleteEntry _ _ fresh _ => fresh ∉ db.groups ∧ fresh ∉ db.deletedObjects
  | .reconcile _ remote => Linked remote
  | _ => True

/-- No slot is emptied below one that stays. -/
def LeavesNoGap (db : Database) : VaultOp → Prop
  | .addAttachment uuid name _ _ => ∀ e c a, db.entry uuid = some e → e.attachments.lookup name = some c →
      db.attachments.lookup c = some a → ∃ r ∈ a.entries, r.1 ≠ uuid
  | .removeAttachment uuid name _ => ∀ e, db.entry uuid = some e →
      FromTheEnd (fun x c => x = uuid ∧ e.attachments.lookup name = some c) db.attachments
  | .purgeEntry _ uuid _ => ∀ e, db.entry uuid = some e → FromTheEnd (fun x c => x = uuid ∧ e.Uses c) db.attachments
  | .deleteEntry _ uuid _ _ => db.meta.recyclebinEnabled.getD true = false →
      ∀ e, db.entry uuid = some e → FromTheEnd (fun x c => x = uuid ∧ e.Uses c) db.attachments
  | .reconcile env remote => Unemptied env db remote ∧ Repairable env db remote
  | _ => True

end VaultOp

variable {env : Env} {db db' : Database} {op : VaultOp} {P : Database → VaultOp → Prop}

/-- The vaults reached from a new or an opened one by operations that meet the condition `P`. -/
inductive VaultRun (P : Database → VaultOp → Prop) : Database → Prop
  | created (config : DatabaseConfig) (rootId : GroupId) (now : NaiveDateTime) :
      VaultRun P (.withData config rootId now)
  | opened (file : KeePassFile) : Linked file.tree → VaultRun P (xmlToDb file)
  | step {db db' : Database} {op : VaultOp} :
      VaultRun P db → op.Sound db → P db op → op.run db = .ok (.ok db') → VaultRun P db'

/-! ## The tree in every state -/

theorem linked_withData (config : DatabaseConfig) (rootId : GroupId) (now : NaiveDateTime) :
    Linked (.withData config rootId now) := by
  set db : Database := .withData config rootId now with hdb
  have group : ∀ i g, db.group i = some g → i = rootId ∧
    g = { id := rootId, parent := none, times := Times.new now } := by
    intro i g hg
    have hi : i = rootId := (Finmap.mem_singleton i rootId _).1 (Finmap.mem_of_lookup_eq_some hg)
    subst hi
    exact ⟨rfl, (Option.some.inj ((Finmap.lookup_singleton_eq).symm.trans hg)).symm⟩
  have entry : ∀ i, db.entry i = none := fun _ => rfl
  have home : ∀ i, db.homeOf i = none := fun _ => rfl
  have parent : ∀ i, db.parentOf i = none := by
    intro i
    cases hg : db.group i with
    | none => simp [parentOf, hg]
    | some g =>
      obtain ⟨-, rfl⟩ := group i g hg
      rw [parentOf_of_group hg]
  refine
    { entry_id := fun he => ?_
      group_id := fun hg => ?_
      root_mem := Finmap.mem_singleton rootId rootId _ |>.2 rfl
      root_parent := parent _
      rooted := fun hi => ?_
      home := fun he => ?_
      child_entries := fun hg j => ?_
      child_groups := fun hg j => ?_ }
  · rw [entry] at he; cases he
  · obtain ⟨rfl, rfl⟩ := group _ _ hg
    rfl
  · obtain ⟨g, hg⟩ := (mem_groups db).1 hi
    obtain ⟨rfl, -⟩ := group _ _ hg
    exact .self
  · rw [entry] at he; cases he
  · obtain ⟨rfl, rfl⟩ := group _ _ hg
    simp [home]
  · obtain ⟨rfl, rfl⟩ := group _ _ hg
    simp [parent]

theorem sameTree_xmlToDb (file : KeePassFile) : SameTree file.tree (xmlToDb file) := by
  refine ⟨rfl, fun i => ?_, fun i => ?_⟩
  · rw [entry_xmlToDb, Option.map_map]; rfl
  · have : (xmlToDb file).group i = (file.tree.group i).map (Group.read file.tree.customIcons) :=
      Finmap.lookup_mapVals _ _ _
    rw [this, Option.map_map]; rfl

/-- An operation on an existing entry. -/
theorem findEntryId_ok {uuid : Uuid} {id : EntryId} (h : findEntryId db uuid = .ok id) :
    uuid ∈ db.entries ∧ id = uuid := by
  unfold findEntryId at h
  split at h
  · exact ⟨‹_›, (Except.ok.inj h).symm⟩
  · cases h

/-- What operations do that leave the attachments alone. -/
structure Retains (db db' : Database) : Prop where
  linked : Linked db'
  attachments : db'.attachments = db.attachments

theorem Retains.modifyEntry (hl : Linked db) (id : EntryId) {f : Entry → Entry} (hf : ∀ e, (f e).place = e.place) :
    Retains db (db.modifyEntry id f) := ⟨(SameTree.modifyEntry db id hf).linkedBut hl, rfl⟩

theorem addEntry_retains {group : Uuid} {draft : EntryDraft} {fresh : EntryId} {now : Nat → NaiveDateTime} {uuid : Uuid}
    (hl : Linked db) (hfresh : fresh ∉ db.entries) (h : addEntry db group draft fresh now = .ok (db', uuid)) :
    Retains db db' := by
  simp only [addEntry, Loop.bind_ok] at h
  obtain ⟨g, hg, h⟩ := h
  have hmem : g ∈ db.groups := by
    unfold findGroupId at hg
    split at hg
    · exact Except.ok.inj hg ▸ ‹_›
    · cases hg
  obtain ⟨h, -⟩ := Prod.mk.inj (Loop.pure_ok.1 h)
  set e := populateEntryFromDraft now { id := fresh, parent := g, times := Times.new (now 0) } draft with he
  have hid : e.id = fresh := rfl
  have hparent : e.parent = g := rfl
  have hadd : db.addEntryWithId g fresh e = .ok db' := by
    unfold addEntryWithId
    rw [if_neg hfresh, ← h]; rfl
  refine ⟨(addEntryWithId_edit hl hid hparent hmem hadd).linkedBut hl, ?_⟩
  rw [← h]; rfl

theorem editEntry_retains {uuid : Uuid} {edit : ViewEdit} {now : NaiveDateTime} (hl : Linked db)
    (h : editEntry db uuid edit now = .ok db') : Retains db db' := by
  simp only [editEntry, Loop.bind_ok] at h
  obtain ⟨id, -, h⟩ := h
  split at h
  · cases h
  · split at h
    · rw [← Loop.pure_ok.1 h]; exact ⟨hl, rfl⟩
    · rw [← Loop.pure_ok.1 h]
      exact .modifyEntry hl id fun _ => rfl

theorem setExpiration_retains {uuid : Uuid} {when now : NaiveDateTime} (hl : Linked db)
    (h : setExpiration db uuid when now = .ok db') : Retains db db' := by
  simp only [setExpiration, Loop.bind_ok] at h
  obtain ⟨id, -, h⟩ := h
  split at h
  · cases h
  · rw [← Loop.pure_ok.1 h]
    exact .modifyEntry hl id fun _ => rfl

theorem clearExpiration_retains {uuid : Uuid} {now : NaiveDateTime} (hl : Linked db)
    (h : clearExpiration db uuid now = .ok db') : Retains db db' := by
  simp only [clearExpiration, Loop.bind_ok] at h
  obtain ⟨id, -, h⟩ := h
  split at h
  · cases h
  · rw [← Loop.pure_ok.1 h]
    exact .modifyEntry hl id fun _ => rfl

theorem Kin.retains {base : Database} {moved updated : Set EntryId} {bins : Set GroupId}
    (h : Kin base moved updated bins db) : Retains base db := ⟨h.linked, h.attachments⟩

/-- A purge takes the slots of the entry from it. -/
theorem purgeEntry_ok {uuid : Uuid} {now : NaiveDateTime} (hl : Linked db)
    (h : purgeEntry env db uuid now = .ok (.ok db')) : Linked db' ∧ ∃ e, db.entry uuid = some e ∧
      Drains (fun x c => x = uuid ∧ e.Uses c) db.attachments db'.attachments := by
  unfold purgeEntry at h
  split at h
  · cases h
  rename_i id hid
  obtain ⟨-, rfl⟩ := findEntryId_ok hid
  obtain ⟨t, ht, h⟩ := Loop.bind_ok.1 h
  obtain rfl := Except.ok.inj (Loop.pure_ok.1 h)
  have same : SameTree db { db with deletedObjects := db.deletedObjects.insert id (some now) } := .of_eq rfl rfl rfl
  obtain ⟨e, he, -, hentries, -⟩ := removeEntry_ok ht
  have hpool := (removeEntry_clears ht).pool
  refine ⟨(removeEntry_linked (same.linkedBut hl) ht).1, e, he, hpool.congr fun x c => ?_⟩
  rw [Database.entry, hentries, Finmap.lookup_erase_eq]
  by_cases hx : x = id
  · subst hx
    simp only [if_true, true_and]
    constructor
    · rintro ⟨e', he', hc⟩
      rw [he, Option.some.injEq] at he'
      exact he' ▸ hc
    · exact fun hc => ⟨e, he, hc⟩
  · simp only [hx, if_false, false_and, iff_false, not_and]
    rintro hnone ⟨e', he', -⟩
    change db.entries.lookup x = some e' at he'
    change db.entries.lookup x = none at hnone
    rw [hnone] at he'; cases he'

theorem addAttachment_vault_ok {uuid : Uuid} {name : String} {bytes : Bytes} {now : NaiveDateTime}
    (h : Vault.addAttachment db uuid name bytes now = .ok (.ok db')) :
    ∃ t, db.addAttachment uuid name (.unprotected bytes) = .ok t ∧ db' = t.modifyEntry uuid (modifiedAt now) := by
  unfold Vault.addAttachment at h
  dsimp only at h
  split at h
  · cases h
  split at h
  · cases h
  rename_i id hid
  obtain ⟨-, rfl⟩ := findEntryId_ok hid
  obtain ⟨t, ht, h⟩ := Loop.bind_ok.1 h
  exact ⟨t, ht, (Except.ok.inj (Loop.pure_ok.1 h)).symm⟩

theorem removeAttachment_vault_ok {uuid : Uuid} {name : String} {now : NaiveDateTime}
    (h : Vault.removeAttachment db uuid name now = .ok (.ok db')) :
    ∃ t, db.removeAttachmentByName uuid name = .ok t ∧ db' = t.modifyEntry uuid (modifiedAt now) := by
  unfold Vault.removeAttachment at h
  split at h
  · cases h
  rename_i id hid
  obtain ⟨-, rfl⟩ := findEntryId_ok hid
  obtain ⟨e, -, h⟩ := Loop.bind_ok.1 h
  split at h
  · cases h
  obtain ⟨t, ht, h⟩ := Loop.bind_ok.1 h
  exact ⟨t, ht, (Except.ok.inj (Loop.pure_ok.1 h)).symm⟩

/-- One operation keeps the tree, and the pool is as it was but for the slots it names. -/
theorem vaultOp_keeps (hl : Linked db) (hsound : op.Sound db) (h : op.run db = .ok (.ok db')) :
    Linked db' ∧ (op.LeavesNoGap db → Dense db.attachments.keys → Dense db'.attachments.keys) := by
  -- most operations leave the pool alone
  have retained : Retains db db' →
      Linked db' ∧ (op.LeavesNoGap db → Dense db.attachments.keys → Dense db'.attachments.keys) :=
    fun hr => ⟨hr.linked, fun _ hd => hr.attachments ▸ hd⟩
  cases op with
  | addEntry group draft fresh now =>
    have h := Except.ok.inj h
    cases hadd : addEntry db group draft fresh now with
    | error e => rw [hadd] at h; cases h
    | ok r =>
      rw [hadd] at h
      obtain rfl := Except.ok.inj h
      exact retained (addEntry_retains hl hsound hadd)
  | editEntry uuid edit now => exact retained (editEntry_retains hl (Except.ok.inj h))
  | updateEntry uuid f now => exact retained ((Kin.refl hl).update (Except.ok.inj h)).retains
  | moveEntry uuid newGroup now => exact retained ((Kin.refl hl).move h).retains
  | deleteEntry env uuid fresh now =>
    by_cases hbin : db.meta.recyclebinEnabled.getD true = true
    · exact retained ((Kin.refl hl).delete hbin (fun _ => ⟨hsound.1, hsound.1, hsound.2⟩) h).retains
    · have hoff : db.meta.recyclebinEnabled.getD true = false := by simpa using hbin
      change Falach.deleteEntry env db uuid fresh now = _ at h
      unfold Falach.deleteEntry at h
      rw [if_pos hoff] at h
      obtain ⟨hlinked, e, he, hpool⟩ := purgeEntry_ok hl h
      exact ⟨hlinked, fun hgap hd => dense_of_drains hpool hd (hgap hoff e he)⟩
  | purgeEntry env uuid now =>
    obtain ⟨hlinked, e, he, hpool⟩ := purgeEntry_ok hl h
    exact ⟨hlinked, fun hgap hd => dense_of_drains hpool hd (hgap e he)⟩
  | setExpiration uuid when now => exact retained (setExpiration_retains hl (Except.ok.inj h))
  | clearExpiration uuid now => exact retained (clearExpiration_retains hl (Except.ok.inj h))
  | addAttachment uuid name bytes now =>
    obtain ⟨t, ht, rfl⟩ := addAttachment_vault_ok h
    have edit := (addAttachment_attachmentEdit ht).trans
      (modifyEntry_attachmentEdit t uuid (f := modifiedAt now) fun _ => rfl)
    refine ⟨edit.sameTree.linkedBut hl, fun hgap hd => ?_⟩
    have hdense : Dense t.attachments.keys := addAttachment_dense ht hd hgap
    exact hdense
  | removeAttachment uuid name now =>
    obtain ⟨t, ht, rfl⟩ := removeAttachment_vault_ok h
    have edit := (removeAttachmentByName_attachmentEdit ht).trans
      (modifyEntry_attachmentEdit t uuid (f := modifiedAt now) fun _ => rfl)
    refine ⟨edit.sameTree.linkedBut hl, fun hgap hd => ?_⟩
    obtain ⟨e, m, he, -, -, -, hpool⟩ := removeAttachmentByName_ok ht
    exact dense_of_drains hpool hd (hgap e he)
  | setMaxAttachmentBytes n =>
    have h := Except.ok.inj h
    unfold Falach.setMaxAttachmentBytes at h
    split at h
    · cases h
    · have h := Except.ok.inj h
      have tree : SameTree db db' := by rw [← h]; exact .of_eq rfl rfl rfl
      exact retained ⟨tree.linkedBut hl, by rw [← h]⟩
  | reconcile env remote =>
    obtain ⟨⟨merged, delta⟩, hr, h⟩ := Loop.bind_ok.1 h
    obtain rfl := Except.ok.inj (Loop.pure_ok.1 h)
    exact ⟨reconcile_linked hl hsound hr, fun hgap hd => reconcile_dense hl hsound hr hd hgap.1 hgap.2⟩

namespace VaultRun

theorem linked (h : VaultRun P db) : Linked db := by
  induction h with
  | created config rootId now => exact linked_withData config rootId now
  | opened file hl => exact (sameTree_xmlToDb file).linkedBut hl
  | step _ hsound _ hrun ih => exact (vaultOp_keeps ih hsound hrun).1

/-- While no operation leaves a gap, no state has one. -/
theorem dense (h : VaultRun (fun db op => op.LeavesNoGap db) db) : Dense db.attachments.keys := by
  induction h with
  | created config rootId now => exact ⟨0, rfl⟩
  | opened file hl =>
    refine .of_downward fun c hc c' hlt => ?_
    rw [Finmap.mem_keys] at hc ⊢
    rcases (mem_filePool file c).1 hc with hin | ⟨-, rfl⟩
    · exact (mem_filePool file c').2 (.inl (Nat.lt_trans hlt hin))
    · exact absurd hlt (Nat.not_lt_zero c')
  | step hrun hsound hgap hop ih => exact (vaultOp_keeps hrun.linked hsound hop).2 hgap ih

end VaultRun

/-! ## Saving and opening -/

/-- The bytes the attachments of an entry have by name. -/
def namedBytes (db : Database) (id : EntryId) : Option (String → Option Bytes) :=
  (db.entry id).map fun e name => (e.attachments.lookup name).bind fun c => (db.attachments.lookup c).map fun a =>
    a.data.get

/-- Saved and opened again, the vault has the attachments it had. -/
def Survives (db : Database) : Prop := ∀ id, namedBytes (xmlToDb (toXml db)) id = namedBytes db id

/-- The attachment that is written as the `c`th. -/
def written (db : Database) (c : Nat) : Option Attachment :=
  (Enumeration.sorted.list db.attachments.keys)[c]?.bind db.attachments.lookup

/-- Every number that an entry uses is the place of an attachment with the same bytes. -/
def InPlace (db : Database) : Prop :=
  ∀ id e c, db.entry id = some e → e.Uses c →
    (written db c).map (fun a => a.data.get) = (db.attachments.lookup c).map fun a => a.data.get

theorem getElem?_headerAttachments (db : Database) (c : Nat) :
    (toXml db).headerAttachments[c]? = (written db c).map (·.data) := by
  unfold toXml written
  dsimp only
  have all : ∀ k ∈ Enumeration.sorted.list db.attachments.keys, ∃ a, db.attachments.lookup k = some a := by
    intro k hk
    rw [Enumeration.mem_list, Finmap.mem_keys] at hk
    exact Finmap.mem_iff.1 hk
  generalize Enumeration.sorted.list db.attachments.keys = l at all
  induction l generalizing c with
  | nil => rfl
  | cons k l ih =>
    obtain ⟨a, ha⟩ := all k List.mem_cons_self
    rw [List.filterMap_cons_some (by rw [ha]; rfl)]
    cases c with
    | zero => simp [ha]
    | succ c => exact ih c fun k hk => all k (List.mem_cons_of_mem _ hk)

theorem namedBytes_reopened (db : Database) (id : EntryId) :
    namedBytes (xmlToDb (toXml db)) id = (db.entry id).map fun e name =>
      (e.attachments.lookup name).bind fun c => (written db c).map fun a => a.data.get := by
  have pool : ∀ c, ((filePool (toXml db)).lookup c).map (·.data) = (written db c).map (·.data) := fun c => by
    rw [lookup_filePool rfl, getElem?_headerAttachments]
  unfold namedBytes
  rw [entry_reopened, Option.map_map]
  refine Option.map_congr fun e _ => funext fun name => ?_
  change ((e.attachments.filterVals fun id => id ∈ filePool (toXml db)).lookup name).bind
    (fun c => ((filePool (toXml db)).lookup c).map fun a => a.data.get) = _
  rw [Finmap.lookup_filterVals]
  cases e.attachments.lookup name with
  | none => rfl
  | some c =>
    have hbytes : ((filePool (toXml db)).lookup c).map (fun a => a.data.get) = (written db c).map fun a =>
      a.data.get := by
      have := congrArg (Option.map Value.get) (pool c)
      rwa [Option.map_map, Option.map_map] at this
    by_cases hin : c ∈ filePool (toXml db)
    · rw [show Option.filter (fun id =>
        decide (id ∈ filePool (toXml db))) (some c) = some c by simp [Option.filter, hin]]
      exact hbytes
    · rw [show Option.filter (fun id => decide (id ∈ filePool (toXml db))) (some c) = none by simp [Option.filter, hin]]
      rw [Finmap.notMem_iff_lookup.1 hin] at hbytes
      exact hbytes

/-- The attachments survive exactly if every number in use is the place of its attachment. -/
theorem survives_iff (db : Database) : Survives db ↔ InPlace db := by
  constructor
  · rintro h id e c he ⟨name, hc⟩
    have hid := h id
    rw [namedBytes_reopened, namedBytes, he, Option.map_some, Option.map_some, Option.some.injEq] at hid
    have hname := congrFun hid name
    simp only [hc, Option.bind_some] at hname
    exact hname
  · intro h id
    rw [namedBytes_reopened, namedBytes]
    refine Option.map_congr fun e he => funext fun name => ?_
    cases hc : e.attachments.lookup name with
    | none => rfl
    | some c => exact h id e c he ⟨name, hc⟩

theorem Dense.inPlace (h : Dense db.attachments.keys) : InPlace db := by
  intro id e c _ _
  obtain ⟨n, hn⟩ := h
  have hlist : Enumeration.sorted.list (Finset.range n) = List.range n :=
    (List.pairwise_le_range (n := n)).insertionSort_eq
  unfold written
  rw [hn, hlist]
  by_cases hc : c < n
  · rw [List.getElem?_range hc]; rfl
  · have hno : c ∉ db.attachments := by
      rw [← Finmap.mem_keys, hn, Finset.mem_range]; exact hc
    rw [List.getElem?_eq_none (by simpa using hc), Finmap.notMem_iff_lookup.1 hno]; rfl

/-- Every vault has the attachments it had after saving and opening exactly if all are in place; and they are, as long
as no operation empties a slot below one that stays. -/
theorem attachments_survive_iff (db : Database) :
    (Survives db ↔ InPlace db) ∧ (VaultRun (fun db op => op.LeavesNoGap db) db → Survives db) :=
  ⟨survives_iff db, fun hrun => (survives_iff db).2 hrun.dense.inPlace⟩

/-! ## A gap -/

/-- An attachment under a name the entry does not have empties nothing. -/
theorem leavesNoGap_of_new {uuid : Uuid} {name : String} {bytes : Bytes} {now : NaiveDateTime}
    (h : (db.entry uuid).bind (fun e => e.attachments.lookup name) = none) :
    (VaultOp.addAttachment uuid name bytes now).LeavesNoGap db := by
  intro e c a he hc
  rw [he, Option.bind_some, hc] at h
  cases h

/-- The state after an operation that succeeds. -/
def after (db : Database) (op : VaultOp) : Database :=
  match op.run db with
  | .ok (.ok db') => db'
  | _ => db

def newVault : Database := .withData { kdfConfig := .aes 1 } 1 0
def oneEntry : Database := after newVault (.addEntry 1 { title := "bank" } 5 fun _ => 10)
def oneFile : Database := after oneEntry (.addAttachment 5 "a" [1] 20)
def twoFiles : Database := after oneFile (.addAttachment 5 "b" [2] 30)
def secondFile : Database := after twoFiles (.removeAttachment 5 "a" 40)

theorem twoFiles_run {P : Database → VaultOp → Prop}
    (hentry : P newVault (.addEntry 1 { title := "bank" } 5 fun _ => 10))
    (ha : P oneEntry (.addAttachment 5 "a" [1] 20)) (hb : P oneFile (.addAttachment 5 "b" [2] 30)) :
    VaultRun P twoFiles := by
  have entered : VaultRun P oneEntry := by
    refine .step (.created { kdfConfig := .aes 1 } 1 0) ?_ hentry (by rfl)
    exact Finmap.notMem_empty
  have filed : VaultRun P oneFile := by
    refine .step entered ?_ ha (by decide +kernel)
    trivial
  refine .step filed ?_ hb (by decide +kernel)
  trivial

/-- Nothing is lost while attachments are only added. -/
theorem twoFiles_survive : Survives twoFiles :=
  (attachments_survive_iff twoFiles).2 (twoFiles_run trivial (leavesNoGap_of_new (by decide +kernel))
    (leavesNoGap_of_new (by decide +kernel)))

/-- The first of two attachments is removed. The second is written first, and its number leads to nothing. -/
theorem second_attachment_lost : ¬ ∀ db, VaultRun (fun _ _ => True) db → Survives db := by
  intro claim
  have removed : (VaultOp.removeAttachment 5 "a" 40).run twoFiles = .ok (.ok secondFile) := by decide +kernel
  have run : VaultRun (fun _ _ => True) secondFile := by
    refine .step (twoFiles_run trivial trivial trivial) ?_ trivial removed
    trivial
  have lost : (namedBytes (xmlToDb (toXml secondFile)) 5).map (· "b") ≠ (namedBytes secondFile 5).map (· "b") := by
    decide +kernel
  exact lost (congrArg _ (claim secondFile run 5))

end Falach
