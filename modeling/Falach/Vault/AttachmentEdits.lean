import Falach.Format.XmlDb
import Falach.Vault.TreeFormed
/-!
# Attachments that are edited

A database that was read from a file has no back-references in its pool, so the slot of an attachment that is replaced
or removed goes, whoever else has an attachment in it: another name, another entry, or an old version.
-/

namespace Falach

open Keepass Database

/-! ## Reading -/

/-- `Attachment`. -/
structure AttachmentInfo where
  name : String
  sizeBytes : Nat
  contentHash : Bytes

namespace Vault

/-- `read_attachment`. -/
def getAttachment (db : Database) (uuid : Uuid) (name : String) : Except Fault (Except VaultError Bytes) :=
  match findEntryId db uuid with
  | .error e => return .error e
  | .ok id =>
    match db.entry id with
    | none => return .error (.entryNotFound uuid)
    | some e =>
      match e.attachments.lookup name with
      | none => return .error (.attachmentNotFound name)
      | some att => do
        let attachment ← expect (db.attachments.lookup att)
        return .ok attachment.data.get

/-- `list_attachments_for`, with the order in which the map of names is walked. -/
def listAttachments (sha256 : Bytes → Bytes) (names : Enumeration String) (db : Database) (uuid : Uuid) :
    Except Fault (Except VaultError (List AttachmentInfo)) :=
  match findEntryId db uuid with
  | .error e => return .error e
  | .ok id =>
    match db.entry id with
    | none => return .error (.entryNotFound uuid)
    | some e => do
      let all ← (names.list e.attachments.keys).mapM fun name => do
        let att ← expect (e.attachments.lookup name)
        let attachment ← expect (db.attachments.lookup att)
        return ({
          name
          sizeBytes := attachment.data.get.length
          contentHash := sha256 attachment.data.get } : AttachmentInfo)
      return .ok all

end Vault

/-! ## Places -/

/-- A name on the current version of an entry, or on a version of its history. -/
structure Place where
  entry : EntryId
  version : Option Nat
  name : String
deriving DecidableEq

def versionAt (e : Entry) : Option Nat → Option Version
  | none => some e.toVersion
  | some i => (versions e)[i]?

def slotAt (db : Database) (p : Place) : Option AttachmentId :=
  ((db.entry p.entry).bind (versionAt · p.version)).bind (·.attachments.lookup p.name)

/-- What is at a place: no attachment, one whose slot is not there, or some bytes. -/
def bytesAt (db : Database) (p : Place) : Option (Option Bytes) :=
  (slotAt db p).map fun c => (db.attachments.lookup c).map (·.data.get)

/-- Another place has its attachment in the same slot. -/
def SharedSlot (db : Database) (p : Place) : Prop := ∃ c, slotAt db p = some c ∧ ∃ q, q ≠ p ∧ slotAt db q = some c

namespace VaultCall

/-- The place that a call edits. -/
def edits : VaultCall → Option Place
  | .addAttachment uuid name _ _ | .removeAttachment uuid name _ => some ⟨uuid, none, name⟩
  | _ => none

/-- The call replaces or removes an attachment that shares its slot. -/
def FreesShared (db : Database) : VaultCall → Prop
  | .addAttachment uuid name bytes _ => bytes.length ≤ readMaxAttachmentBytes db ∧ SharedSlot db ⟨uuid, none, name⟩
  | .removeAttachment uuid name _ => SharedSlot db ⟨uuid, none, name⟩
  | _ => False

end VaultCall

/-- The call changes one attachment, and all can be read afterwards. -/
structure TouchesOnly (c : Called) : Prop where
  others : ∀ p, c.call.edits ≠ some p → bytesAt c.after p = bytesAt c.before p
  added : c.result = .ok () → ∀ uuid name bytes now, c.call = .addAttachment uuid name bytes now →
    bytesAt c.after ⟨uuid, none, name⟩ = some (some bytes)
  removed : c.result = .ok () → ∀ uuid name now, c.call = .removeAttachment uuid name now →
    bytesAt c.after ⟨uuid, none, name⟩ = none
  refused : ∀ e, c.result = .error e → c.after = c.before
  reads : ∀ uuid name, ∃ r, Vault.getAttachment c.after uuid name = .ok r
  lists : ∀ sha256 names uuid, ∃ r, Vault.listAttachments sha256 names c.after uuid = .ok r

variable {db db' t : Database} {r : Except VaultError Unit} {p q : Place} {c : AttachmentId} {bytes : Option Bytes}

/-! ## What a good pool is -/

/-- Every attachment is in a slot of the pool, and the back-references of a slot are to the entry that has it. -/
structure PoolFormed (db : Database) : Prop where
  refs : ∀ p c, slotAt db p = some c → c ∈ db.attachments
  back : ∀ c a, db.attachments.lookup c = some a → ∀ r ∈ a.entries, ∀ p, slotAt db p = some c → p.entry = r.1

theorem bytesAt_of_slotAt (h : slotAt db p = some c) :
    bytesAt db p = some ((db.attachments.lookup c).map (·.data.get)) := by
  rw [bytesAt, h, Option.map_some]

theorem bytesAt_of_none (h : slotAt db p = none) : bytesAt db p = none := by
  rw [bytesAt, h, Option.map_none]

theorem PoolFormed.readable (hf : PoolFormed db) (h : slotAt db p = some c) : ∃ b, bytesAt db p = some (some b) := by
  obtain ⟨a, ha⟩ := Finmap.mem_iff.1 (hf.refs p c h)
  exact ⟨a.data.get, by rw [bytesAt_of_slotAt h, ha, Option.map_some]⟩

theorem slotAt_live {e : Entry} {id : EntryId} (he : db.entry id = some e) (name : String) :
    slotAt db ⟨id, none, name⟩ = e.attachments.lookup name := by
  rw [slotAt, he]
  rfl

theorem filePool_entries {file : KeePassFile} {a : Attachment} (h : (filePool file).lookup c = some a) :
    a.entries = ∅ := by
  unfold filePool at h
  simp only at h
  generalize ({ file.tree with attachments := ∅ } : Database).nextFree = id at h
  have header : ∀ c a, (file.headerAttachments.zipIdx.foldl
      (fun (pool : HashMap AttachmentId Attachment) x => pool.insert x.2 { id := x.2, data := x.1 }) ∅).lookup c =
        some a →
      a.entries = ∅ := by
    intro c a h
    rw [lookup_foldl_zipIdx] at h
    split at h
    · obtain ⟨data, -, rfl⟩ := Option.map_eq_some_iff.1 h
      rfl
    · cases h
  generalize file.headerAttachments.zipIdx.foldl _ _ = pool at h header
  generalize file.binaries = binaries at h
  induction binaries generalizing pool with
  | nil => exact header c a h
  | cons data l ih =>
    refine ih _ (fun c' a' h' => ?_) h
    rw [Finmap.lookup_insert_eq] at h'
    split at h'
    · obtain rfl := Option.some.inj h'
      rfl
    · exact header c' a' h'

theorem versionAt_read {pool : Pool} {icons : HashMap CustomIconId CustomIcon} (e : Entry) (i : Option Nat) :
    versionAt (e.read pool icons) i = (versionAt e i).map (·.read pool icons) := by
  cases i with
  | none => rfl
  | some i =>
    unfold versionAt versions Entry.read
    cases e.history with
    | none => rfl
    | some history => exact List.getElem?_map

/-- What was just read: a number that is not in the file was left out, and no slot refers back. -/
theorem xmlToDb_poolFormed (file : KeePassFile) : PoolFormed (xmlToDb file) := by
  refine ⟨fun p c h => ?_, fun c a ha r hr => ?_⟩
  · obtain ⟨v, hv, hc⟩ := Option.bind_eq_some_iff.1 h
    obtain ⟨e, he, hv⟩ := Option.bind_eq_some_iff.1 hv
    rw [entry_xmlToDb] at he
    obtain ⟨e₀, -, rfl⟩ := Option.map_eq_some_iff.1 he
    rw [versionAt_read] at hv
    obtain ⟨v₀, -, rfl⟩ := Option.map_eq_some_iff.1 hv
    have hc : (v₀.attachments.filterVals fun id => id ∈ filePool file).lookup p.name = some c := hc
    rw [Finmap.lookup_filterVals, Option.filter_eq_some_iff] at hc
    exact of_decide_eq_true hc.2
  · rw [filePool_entries ha] at hr
    exact absurd hr (Finset.notMem_empty r)

theorem PoolFormed.reads (hf : PoolFormed db) (uuid : Uuid) (name : String) :
    ∃ r, Vault.getAttachment db uuid name = .ok r := by
  unfold Vault.getAttachment
  split
  · exact ⟨_, rfl⟩
  split
  · exact ⟨_, rfl⟩
  rename_i e he
  split
  · exact ⟨_, rfl⟩
  rename_i c hc
  obtain ⟨a, ha⟩ := Finmap.mem_iff.1 (hf.refs _ c ((slotAt_live he name).trans hc))
  exact ⟨.ok a.data.get, Loop.bind_ok.2 ⟨a, expect_ok.2 ha, rfl⟩⟩

theorem PoolFormed.lists (hf : PoolFormed db) (sha256 : Bytes → Bytes) (names : Enumeration String) (uuid : Uuid) :
    ∃ r, Vault.listAttachments sha256 names db uuid = .ok r := by
  unfold Vault.listAttachments
  split
  · exact ⟨_, rfl⟩
  split
  · exact ⟨_, rfl⟩
  rename_i e he
  have each : ∀ name ∈ names.list e.attachments.keys, ∃ info : AttachmentInfo, (do
      let att ← expect (e.attachments.lookup name)
      let attachment ← expect (db.attachments.lookup att)
      return ({
        name
        sizeBytes := attachment.data.get.length
        contentHash := sha256 attachment.data.get } : AttachmentInfo)) =
        Except.ok info := by
    intro name hname
    obtain ⟨c, hc⟩ := Finmap.mem_iff.1 (Finmap.mem_keys.1 ((names.mem_list _).1 hname))
    obtain ⟨a, ha⟩ := Finmap.mem_iff.1 (hf.refs _ c ((slotAt_live he name).trans hc))
    exact ⟨_, Loop.bind_ok.2 ⟨c, expect_ok.2 hc, Loop.bind_ok.2 ⟨a, expect_ok.2 ha, rfl⟩⟩⟩
  obtain ⟨all, hall⟩ := Loop.mapM_total each
  exact ⟨.ok all, Loop.bind_ok.2 ⟨all, hall, rfl⟩⟩

/-! ## One edit -/

/-- The place has `bytes` now, in a slot that was free; the slot it had is gone. -/
structure Rewired (db : Database) (p : Place) (bytes : Option Bytes) (db' : Database) : Prop where
  self : bytesAt db' p = bytes.map some
  fresh : ∀ c, slotAt db' p = some c → ∀ a, db'.attachments.lookup c = some a → ∀ r ∈ a.entries, p.entry = r.1
  others : ∀ q, q ≠ p → slotAt db' q = slotAt db q ∨ (slotAt db' q = none ∧ slotAt db q = slotAt db p)
  freed : ∀ c, slotAt db p = some c → db'.attachments.lookup c = none
  kept : ∀ c a, db.attachments.lookup c = some a → slotAt db p ≠ some c →
    ∃ a', db'.attachments.lookup c = some a' ∧ a'.data = a.data ∧ ∀ r ∈ a'.entries, r ∈ a.entries

namespace Rewired

variable (h : Rewired db p bytes db') (hf : PoolFormed db)

include h in
theorem slot_eq (hshared : ¬ SharedSlot db p) (hq : q ≠ p) : slotAt db' q = slotAt db q := by
  rcases h.others q hq with heq | ⟨hnone, hsame⟩
  · exact heq
  · cases hp : slotAt db p with
    | none => rw [hnone, hsame, hp]
    | some c => exact absurd ⟨c, hp, q, hq, hsame.trans hp⟩ hshared

include h hf in
theorem bytes_eq (hshared : ¬ SharedSlot db p) (hq : q ≠ p) : bytesAt db' q = bytesAt db q := by
  have hslot := h.slot_eq hshared hq
  cases hc : slotAt db q with
  | none => rw [bytesAt_of_none hc, bytesAt_of_none (hslot.trans hc)]
  | some c =>
    obtain ⟨a, ha⟩ := Finmap.mem_iff.1 (hf.refs q c hc)
    obtain ⟨a', ha', hdata, -⟩ := h.kept c a ha fun hp => hshared ⟨c, hp, q, hq, hc⟩
    rw [bytesAt_of_slotAt hc, bytesAt_of_slotAt (hslot.trans hc), ha, ha', Option.map_some, Option.map_some, hdata]

include h hf in
theorem poolFormed (hshared : ¬ SharedSlot db p) : PoolFormed db' := by
  have old : ∀ q c, q ≠ p → slotAt db' q = some c → slotAt db q = some c ∧ slotAt db p ≠ some c := by
    intro q c hq hc
    have hc := (h.slot_eq hshared hq).symm.trans hc
    exact ⟨hc, fun hp => hshared ⟨c, hp, q, hq, hc⟩⟩
  refine ⟨fun q c hc => ?_, fun c a' ha' r hr q hc => ?_⟩
  · by_cases hq : q = p
    · subst hq
      have hself := h.self
      rw [bytesAt_of_slotAt hc] at hself
      cases hlook : db'.attachments.lookup c with
      | none =>
        rw [hlook] at hself
        cases bytes <;> cases hself
      | some a => exact Finmap.mem_iff.2 ⟨a, hlook⟩
    · obtain ⟨hc, hne⟩ := old q c hq hc
      obtain ⟨a, ha⟩ := Finmap.mem_iff.1 (hf.refs q c hc)
      obtain ⟨a', ha', -⟩ := h.kept c a ha hne
      exact Finmap.mem_iff.2 ⟨a', ha'⟩
  · by_cases hq : q = p
    · subst hq
      exact h.fresh c hc a' ha' r hr
    · obtain ⟨hc, hne⟩ := old q c hq hc
      obtain ⟨a, ha⟩ := Finmap.mem_iff.1 (hf.refs q c hc)
      obtain ⟨a'', ha'', -, hrefs⟩ := h.kept c a ha hne
      obtain rfl := Option.some.inj (ha'.symm.trans ha'')
      exact hf.back c a ha r (hrefs r hr) q hc

include h hf in
/-- Who else has an attachment in the slot loses it. -/
theorem shared_lost (hshared : SharedSlot db p) : ∃ q, q ≠ p ∧ bytesAt db' q ≠ bytesAt db q := by
  obtain ⟨c, hp, q, hq, hc⟩ := hshared
  obtain ⟨b, hb⟩ := hf.readable hc
  refine ⟨q, hq, fun heq => ?_⟩
  rw [hb] at heq
  rcases h.others q hq with hslot | ⟨hnone, -⟩
  · rw [bytesAt_of_slotAt (hslot.trans hc), h.freed c hp] at heq
    cases heq
  · rw [bytesAt_of_none hnone] at heq
    cases heq

end Rewired

/-- The slots of an entry whose attachments are rewritten; its history keeps what it has. -/
theorem slotAt_rewritten {e : Entry} {m : HashMap String AttachmentId} {id : EntryId} {now : NaiveDateTime}
    (he : db.entry id = some e) (he' : t.entry id = some { e with attachments := m })
    (others : ∀ x, x ≠ id → t.entry x = db.entry x) :
    (∀ name, slotAt (t.modifyEntry id (modifiedAt now)) ⟨id, none, name⟩ = m.lookup name) ∧
      ∀ q : Place, (∀ name, q ≠ ⟨id, none, name⟩) → slotAt (t.modifyEntry id (modifiedAt now)) q = slotAt db q := by
  have now' : (t.modifyEntry id (modifiedAt now)).entry id = some (modifiedAt now { e with attachments := m }) := by
    rw [entry_modifyEntry, if_pos rfl, he']
    rfl
  refine ⟨fun name => slotAt_live now' name, fun q hq => ?_⟩
  obtain ⟨x, version, name⟩ := q
  by_cases hx : x = id
  · subst hx
    cases version with
    | none => exact absurd rfl (hq name)
    | some i =>
      unfold slotAt
      rw [now', he]
      rfl
  · unfold slotAt
    rw [entry_modifyEntry, if_neg hx, others x hx]

/-- The slot that a place lets go of, and the slots that stay. -/
theorem PoolFormed.drained {pool : Pool} (hf : PoolFormed db) (p : Place)
    (grown : ∀ c a, db.attachments.lookup c = some a → pool.lookup c = some a)
    (h : Drains (fun x c => x = p.entry ∧ slotAt db p = some c) pool db'.attachments) :
    (∀ c, slotAt db p = some c → db'.attachments.lookup c = none) ∧
      ∀ c a, db.attachments.lookup c = some a → slotAt db p ≠ some c →
        ∃ a', db'.attachments.lookup c = some a' ∧ a'.data = a.data ∧ ∀ r ∈ a'.entries, r ∈ a.entries := by
  refine ⟨fun c hc => ?_, fun c a ha hne => ?_⟩
  · obtain ⟨a, ha⟩ := Finmap.mem_iff.1 (hf.refs p c hc)
    exact h.erased c a (grown c a ha) ⟨p.entry, rfl, hc⟩ fun r hr => ⟨(hf.back c a ha r hr p hc).symm, hc⟩
  · obtain ⟨a', ha', hdata, hrefs⟩ := h.left c a (grown c a ha) (.inl fun x hx => hne hx.2)
    exact ⟨a', ha', hdata, fun r hr => ((hrefs r).1 hr).1⟩

theorem addAttachment_rewired {uuid : Uuid} {name : String} {b : Bytes} {now : NaiveDateTime} (hf : PoolFormed db)
    (h : Vault.addAttachment db uuid name b now = .ok (.ok db')) : Rewired db ⟨uuid, none, name⟩ (some b) db' := by
  obtain ⟨t, ht, rfl⟩ := addAttachment_vault_ok h
  obtain ⟨e, m, he, he', others, hm, hpool, -⟩ := addAttachment_ok ht
  obtain ⟨live, rest⟩ := @slotAt_rewritten _ _ e m uuid now he he' others
  have hold := slotAt_live he name
  have drains : Drains (fun x c => x = uuid ∧ slotAt db ⟨uuid, none, name⟩ = some c) (stored db uuid (.unprotected b))
      (t.modifyEntry uuid (modifiedAt now)).attachments := by
    rw [hold]
    exact hpool
  obtain ⟨freed, kept⟩ := hf.drained ⟨uuid, none, name⟩ (fun c a ha => lookup_stored _ uuid ha) drains
  -- the new slot is free, so it is not the old one
  have hnew : slotAt db ⟨uuid, none, name⟩ ≠ some db.nextFree := by
    intro heq
    obtain ⟨a, ha⟩ := Finmap.mem_iff.1 (hf.refs _ _ heq)
    rw [lookup_nextFree] at ha
    cases ha
  have hself : slotAt (t.modifyEntry uuid (modifiedAt now)) ⟨uuid, none, name⟩ = some db.nextFree := by
    rw [live, hm, if_pos rfl, Option.filter_some, if_pos (by simpa [← hold] using hnew)]
  obtain ⟨a, ha, hdata, hrefs⟩ := drains.left db.nextFree _ (Finmap.lookup_insert _) (.inl fun x hx => hnew hx.2)
  refine ⟨?_, fun c hc a' ha' r hr => ?_, fun q hq => ?_, freed, kept⟩
  · rw [bytesAt_of_slotAt hself, ha, Option.map_some, hdata]
    rfl
  · obtain rfl := Option.some.inj (hself.symm.trans hc)
    obtain rfl := Option.some.inj (ha.symm.trans ha')
    have hr := ((hrefs r).1 hr).1
    rw [Finset.mem_singleton.1 hr]
  · by_cases hlive : ∃ n, q = ⟨uuid, none, n⟩
    · obtain ⟨n, rfl⟩ := hlive
      have hne : n ≠ name := by rintro rfl; exact hq rfl
      rw [live, hm, if_neg hne, slotAt_live he, hold]
      cases hc : e.attachments.lookup n with
      | none => exact .inl rfl
      | some c =>
        by_cases hsame : e.attachments.lookup name = some c
        · refine .inr ⟨?_, hsame.symm⟩
          rw [Option.filter_some, if_neg (by simpa using hsame)]
        · refine .inl ?_
          rw [Option.filter_some, if_pos (by simpa using hsame)]
    · exact .inl (rest q (not_exists.1 hlive))

theorem removeAttachment_rewired {uuid : Uuid} {name : String} {now : NaiveDateTime} (hf : PoolFormed db)
    (h : Vault.removeAttachment db uuid name now = .ok (.ok db')) : Rewired db ⟨uuid, none, name⟩ none db' := by
  obtain ⟨t, ht, rfl⟩ := removeAttachment_vault_ok h
  obtain ⟨e, m, he, he', others, hm, hpool⟩ := removeAttachmentByName_ok ht
  obtain ⟨live, rest⟩ := @slotAt_rewritten _ _ e m uuid now he he' others
  have hold := slotAt_live he name
  have drains : Drains (fun x c => x = uuid ∧ slotAt db ⟨uuid, none, name⟩ = some c) db.attachments
      (t.modifyEntry uuid (modifiedAt now)).attachments := by
    rw [hold]
    exact hpool
  obtain ⟨freed, kept⟩ := hf.drained ⟨uuid, none, name⟩ (fun _ _ ha => ha) drains
  have hself : slotAt (t.modifyEntry uuid (modifiedAt now)) ⟨uuid, none, name⟩ = none := by
    rw [live, hm, if_pos rfl]
  refine ⟨bytesAt_of_none hself, fun c hc => ?_, fun q hq => ?_, freed, kept⟩
  · rw [hself] at hc
    cases hc
  · by_cases hlive : ∃ n, q = ⟨uuid, none, n⟩
    · obtain ⟨n, rfl⟩ := hlive
      have hne : n ≠ name := by rintro rfl; exact hq rfl
      exact .inl (by rw [live, hm, if_neg hne, slotAt_live he])
    · exact .inl (rest q (not_exists.1 hlive))

/-! ## Sessions -/

theorem slotAt_absent {uuid : Uuid} {e : VaultError} (h : findEntryId db uuid = .error e) (name : String) :
    slotAt db ⟨uuid, none, name⟩ = none := by
  unfold findEntryId at h
  split at h
  · cases h
  · rename_i hmem
    unfold slotAt
    rw [show db.entry uuid = none from Finmap.notMem_iff_lookup.1 hmem]
    rfl

theorem addAttachment_refused {uuid : Uuid} {name : String} {b : Bytes} {now : NaiveDateTime} {e : VaultError}
    (h : Vault.addAttachment db uuid name b now = .ok (.error e)) :
    readMaxAttachmentBytes db < b.length ∨ slotAt db ⟨uuid, none, name⟩ = none := by
  unfold Vault.addAttachment at h
  dsimp only at h
  split at h
  · rename_i hlarge
    exact .inl hlarge
  split at h
  · rename_i hid
    exact .inr (slotAt_absent hid name)
  · obtain ⟨t, -, h⟩ := Loop.bind_ok.1 h
    cases h

theorem addAttachment_fits {uuid : Uuid} {name : String} {b : Bytes} {now : NaiveDateTime}
    (h : Vault.addAttachment db uuid name b now = .ok (.ok db')) : b.length ≤ readMaxAttachmentBytes db := by
  unfold Vault.addAttachment at h
  dsimp only at h
  split at h
  · cases h
  · rename_i hfits
    omega

theorem removeAttachment_refused {uuid : Uuid} {name : String} {now : NaiveDateTime} {e : VaultError}
    (h : Vault.removeAttachment db uuid name now = .ok (.error e)) : slotAt db ⟨uuid, none, name⟩ = none := by
  unfold Vault.removeAttachment at h
  split at h
  · rename_i hid
    exact slotAt_absent hid name
  · rename_i id hid
    obtain ⟨-, rfl⟩ := findEntryId_ok hid
    obtain ⟨x, hx, h⟩ := Loop.bind_ok.1 h
    split at h
    · rename_i hnone
      exact (slotAt_live (expect_ok.1 hx) name).trans hnone
    · obtain ⟨t, -, h⟩ := Loop.bind_ok.1 h
      cases h

theorem not_shared_of_none (h : slotAt db p = none) : ¬ SharedSlot db p := by
  rintro ⟨c, hc, -⟩
  rw [h] at hc
  cases hc

theorem touchesOnly_refused {call : VaultCall} {e : VaultError} (hf : PoolFormed db) :
    TouchesOnly ⟨db, call, .error e, db⟩ where
  others _ _ := rfl
  added h := by cases h
  removed h := by cases h
  refused _ _ := rfl
  reads := hf.reads
  lists := hf.lists

/-- One call. -/
theorem touchesOnly_iff_call {call : VaultCall} (hf : PoolFormed db) (hp : call.edits.isSome)
    (h : call.run db = .ok (r, db')) :
    (TouchesOnly ⟨db, call, r, db'⟩ ↔ ¬ call.FreesShared db) ∧ (¬ call.FreesShared db → PoolFormed db') := by
  cases call with
  | addAttachment uuid name b now =>
    obtain ⟨x, hx, h⟩ := Loop.bind_ok.1 h
    have h := Loop.pure_ok.1 h
    cases x with
    | error e =>
      obtain ⟨rfl, rfl⟩ := Prod.mk.inj h
      have hnot : ¬ (VaultCall.addAttachment uuid name b now).FreesShared db := by
        rintro ⟨hfits, hshared⟩
        rcases addAttachment_refused hx with hlarge | hnone
        · omega
        · exact not_shared_of_none hnone hshared
      exact ⟨iff_of_true (touchesOnly_refused hf) hnot, fun _ => hf⟩
    | ok t =>
      obtain ⟨rfl, rfl⟩ := Prod.mk.inj h
      have rewired := addAttachment_rewired hf hx
      have hfits := addAttachment_fits hx
      refine ⟨⟨fun touches => ?_, fun hnot => ?_⟩, fun hnot => rewired.poolFormed hf fun hshared =>
        hnot ⟨hfits, hshared⟩⟩
      · -- the other place of the slot loses its bytes
        rintro ⟨-, hshared⟩
        obtain ⟨q, hq, hlost⟩ := rewired.shared_lost hf hshared
        exact hlost (touches.others q fun heq => hq (Option.some.inj heq).symm)
      · have hshared : ¬ SharedSlot db ⟨uuid, none, name⟩ := fun hshared => hnot ⟨hfits, hshared⟩
        have formed := rewired.poolFormed hf hshared
        refine ⟨fun q hq => rewired.bytes_eq hf hshared fun heq => hq (heq ▸ rfl), ?_, ?_, ?_, formed.reads,
          formed.lists⟩
        · rintro - uuid' name' bytes' now' hcall
          obtain ⟨rfl, rfl, rfl, rfl⟩ := VaultCall.addAttachment.inj hcall
          exact rewired.self
        · rintro - uuid' name' now' hcall
          cases hcall
        · rintro e he
          cases he
  | removeAttachment uuid name now =>
    obtain ⟨x, hx, h⟩ := Loop.bind_ok.1 h
    have h := Loop.pure_ok.1 h
    cases x with
    | error e =>
      obtain ⟨rfl, rfl⟩ := Prod.mk.inj h
      exact ⟨iff_of_true (touchesOnly_refused hf) (not_shared_of_none (removeAttachment_refused hx)), fun _ => hf⟩
    | ok t =>
      obtain ⟨rfl, rfl⟩ := Prod.mk.inj h
      have rewired := removeAttachment_rewired hf hx
      refine ⟨⟨fun touches hshared => ?_, fun hshared => ?_⟩, rewired.poolFormed hf⟩
      · obtain ⟨q, hq, hlost⟩ := rewired.shared_lost hf hshared
        exact hlost (touches.others q fun heq => hq (Option.some.inj heq).symm)
      · have formed := rewired.poolFormed hf hshared
        refine ⟨fun q hq => rewired.bytes_eq hf hshared fun heq => hq (heq ▸ rfl), ?_, ?_, ?_, formed.reads,
          formed.lists⟩
        · rintro - uuid' name' bytes' now' hcall
          cases hcall
        · rintro - uuid' name' now' hcall
          obtain ⟨rfl, rfl, rfl⟩ := VaultCall.removeAttachment.inj hcall
          exact rewired.self
        · rintro e he
          cases he
  | _ => cases hp

/-- As long as no slot that is shared was let go of, the pool is a good one. -/
theorem session_poolFormed {calls : List Called} (hf : PoolFormed db) (h : Session db calls db')
    (hedits : ∀ c ∈ calls, c.call.edits.isSome) :
    ((∀ c ∈ calls, TouchesOnly c) ↔ ∀ c ∈ calls, ¬ c.call.FreesShared c.before) ∧
      ((∀ c ∈ calls, ¬ c.call.FreesShared c.before) → PoolFormed db') := by
  induction h with
  | start =>
    refine ⟨iff_of_true ?_ ?_, fun _ => hf⟩
    · intro c hc; cases hc
    · intro c hc; cases hc
  | @call calls t t' call r hs hsound hrun ih =>
    obtain ⟨hiff, hformed⟩ := ih fun c hc => hedits c (List.mem_append_left _ hc)
    have hlast := hedits _ (List.mem_append_right calls (List.mem_singleton_self _))
    simp only [List.forall_mem_append, List.forall_mem_singleton]
    -- the last call is judged on a good pool: the calls before it were all right
    refine ⟨⟨fun ⟨hcalls, htouches⟩ => ?_, fun ⟨hcalls, hnot⟩ => ?_⟩, fun ⟨hcalls, hnot⟩ => ?_⟩
    · have hcalls := hiff.1 hcalls
      exact ⟨hcalls, (touchesOnly_iff_call (hformed hcalls) hlast hrun).1.1 htouches⟩
    · exact ⟨hiff.2 hcalls, (touchesOnly_iff_call (hformed hcalls) hlast hrun).1.2 hnot⟩
    · exact (touchesOnly_iff_call (hformed hcalls) hlast hrun).2 hnot

/-- In every session of added and removed attachments on a database as it was read, each call changes one attachment and
leaves all of them readable, if and only if no call replaces or removes an attachment that shares its slot. -/
theorem attachment_edits_iff {file : KeePassFile} {calls : List Called} (h : Session (xmlToDb file) calls db')
    (hedits : ∀ c ∈ calls, c.call.edits.isSome) :
    (∀ c ∈ calls, TouchesOnly c) ↔ ∀ c ∈ calls, ¬ c.call.FreesShared c.before :=
  (session_poolFormed (xmlToDb_poolFormed file) h hedits).1

/-! A file whose entry has a scan of a passport, with an old version that has the same one. -/

def scanned (e : Entry) : Entry :=
  let v : Version := { e.toVersion with attachments := Finmap.singleton "scan" 0 }
  { toVersion := v, history := some [v] }

def scanFile : KeePassFile where
  tree := withEntry.modifyEntry 5 scanned
  headerAttachments := [.unprotected [1, 2, 3]]

def scanRemoval : VaultCall := .removeAttachment 5 "scan" 40

def scanEdits : List Called := [] ++ [⟨xmlToDb scanFile, scanRemoval, .ok (), afterCall (xmlToDb scanFile) scanRemoval⟩]

theorem scanEdits_session : Session (xmlToDb scanFile) scanEdits (afterCall (xmlToDb scanFile) scanRemoval) := by
  have removed : scanRemoval.run (xmlToDb scanFile) = .ok (.ok (), afterCall (xmlToDb scanFile) scanRemoval) := by
    decide +kernel
  exact .call .start trivial removed

theorem scanEdits_edits : ∀ c ∈ scanEdits, c.call.edits.isSome := by
  intro c hc
  obtain rfl := List.mem_singleton.1 hc
  rfl

/-- The scan of the old version was there, and its slot is gone. -/
theorem scan_lost : bytesAt (xmlToDb scanFile) ⟨5, some 0, "scan"⟩ = some (some [1, 2, 3]) ∧
    bytesAt (afterCall (xmlToDb scanFile) scanRemoval) ⟨5, some 0, "scan"⟩ = some none := by
  constructor <;> decide +kernel

theorem scan_not_touchesOnly : ¬ ∀ c ∈ scanEdits, TouchesOnly c := by
  intro htouches
  have same := (htouches _ (List.mem_singleton_self _)).others ⟨5, some 0, "scan"⟩ (by decide)
  rw [scan_lost.1, scan_lost.2] at same
  cases same

/-- A scan that is removed from the entry is gone from its history too. -/
theorem removal_reaches_history : ¬ ∀ file db' calls, Session (xmlToDb file) calls db' →
    (∀ c ∈ calls, c.call.edits.isSome) → ∀ c ∈ calls, TouchesOnly c := by
  intro hall
  exact scan_not_touchesOnly (hall _ _ _ scanEdits_session scanEdits_edits)

theorem attachment_edits_iff_scan : SharedSlot (xmlToDb scanFile) ⟨5, none, "scan"⟩ := by
  have iff := attachment_edits_iff scanEdits_session scanEdits_edits
  by_contra hnot
  refine scan_not_touchesOnly (iff.2 ?_)
  intro c hc
  obtain rfl := List.mem_singleton.1 hc
  exact hnot

end Falach
