import Falach.Keepass.Pool
import Falach.Sync.Survival
/-!
# One entry's attachments rewritten

What the edits of the attachment passes do to the entry they are for, to the other entries, and to the pool. An
attachment that is added takes the lowest free slot, and the slot its name had before is let go of.
-/

namespace Falach

open Keepass Database

variable {env : Env} {db db' t remote localDb : Database} {id : EntryId} {e : Entry} {name : String}
    {data : Value Bytes}
  {c : AttachmentId}

/-! ## Named attachments -/

/-- The bytes of the attachments of a version, by name. -/
def bytesOf (db : Database) (v : Version) : HashMap String (Option Bytes) :=
  v.attachments.mapVals fun c => (db.attachments.lookup c).map fun a => a.data.get

theorem lookup_bytesOf (db : Database) (v : Version) (name : String) : (bytesOf db v).lookup name =
    (v.attachments.lookup name).map fun c => (db.attachments.lookup c).map fun a => a.data.get :=
  Finmap.lookup_mapVals _ _ _

theorem attachmentsNamed_ok {site : Site} {named : List (String × Value Bytes)}
    (h : attachmentsNamed env site db e = .ok named) :
    named.map Prod.fst = (env.names site e.id).list e.attachments.keys ∧
      ∀ x ∈ named, ∃ c a, e.attachments.lookup x.1 = some c ∧ db.attachments.lookup c = some a ∧ a.data = x.2 := by
  have each := Loop.mapM_forall₂ h
  clear h
  generalize (env.names site e.id).list e.attachments.keys = l at each
  induction each with
  | nil => exact ⟨rfl, fun x hx => by cases hx⟩
  | cons hx _ ih =>
    simp only [Loop.bind_ok, expect_ok, Loop.pure_ok] at hx
    obtain ⟨c, hc, a, ha, rfl⟩ := hx
    refine ⟨by rw [List.map_cons, ih.1], fun x hx => ?_⟩
    rcases List.mem_cons.1 hx with rfl | hx
    · exact ⟨c, a, hc, ha, rfl⟩
    · exact ih.2 x hx

/-- What the passes compare are the bytes. -/
theorem bytesByName_eq {site : Site} {named : List (String × Value Bytes)}
    (h : attachmentsNamed env site db e = .ok named) : (bytesByName named).mapVals some = bytesOf db e.toVersion := by
  obtain ⟨hnames, heach⟩ := attachmentsNamed_ok h
  have hn : (named.map Prod.fst).Nodup := by rw [hnames]; exact (env.names site e.id).nodup_list _
  obtain ⟨inside, outside⟩ := Finmap.lookup_foldl_insert (fun x : String × Value Bytes => x.1) (·.2.get)
    (fun x hx y hy he => by rw [List.inj_on_of_nodup_map hn hx hy he]) ∅
  refine Finmap.ext_lookup fun name => ?_
  rw [Finmap.lookup_mapVals, lookup_bytesOf]
  by_cases hname : name ∈ named.map Prod.fst
  · obtain ⟨x, hx, rfl⟩ := List.mem_map.1 hname
    obtain ⟨c, a, hc, ha, hdata⟩ := heach x hx
    rw [bytesByName, inside x hx, hc, Option.map_some, Option.map_some, ha, Option.map_some, hdata]
  · rw [bytesByName, outside name hname]
    rw [hnames, (env.names site e.id).mem_list, Finmap.mem_keys, Finmap.notMem_iff_lookup] at hname
    rw [hname]; rfl

/-! ## The lowest free slot -/

theorem firstFree_mem {used : Finset Nat} {n i : Nat} (h : firstFree used n i ∈ used) : ∀ k ≤ n, i + k ∈ used := by
  induction n generalizing i with
  | zero => intro k hk; rw [Nat.le_zero.1 hk]; exact h
  | succ n ih =>
    rw [firstFree] at h
    by_cases hi : i ∈ used
    · rw [if_pos hi] at h
      intro k hk
      cases k with
      | zero => exact hi
      | succ k => rw [show i + (k + 1) = i + 1 + k by omega]; exact ih h k (by omega)
    · rw [if_neg hi] at h; exact absurd h hi

theorem firstFree_notMem (used : Finset Nat) : firstFree used used.card 0 ∉ used := by
  intro h
  have hall := firstFree_mem h
  have : (Finset.range (used.card + 1)).card ≤ used.card := Finset.card_le_card fun k hk => by
    have := hall k (by rw [Finset.mem_range] at hk; omega)
    rwa [Nat.zero_add] at this
  rw [Finset.card_range] at this
  omega

theorem lookup_nextFree (db : Database) : db.attachments.lookup db.nextFree = none := by
  rw [← Finmap.notMem_iff_lookup, ← Finmap.mem_keys]; exact firstFree_notMem _

/-! ## Who refers to which slot -/

/-- The back-references of each slot of the pool. -/
abbrev Slots := HashMap AttachmentId (Finset (EntryId × Option Nat))

namespace Slots

/-- The slot `next_free` gives. -/
def free (t : Slots) : AttachmentId := firstFree t.keys t.keys.card 0

/-- The lowest free slot taken by entry `id`. -/
def take (t : Slots) (id : EntryId) : Slots := t.insert t.free {(id, none)}

/-- Slot `c` let go of by entry `id`. -/
def letGo (t : Slots) (id : EntryId) (c : AttachmentId) : Slots :=
  match t.lookup c with
  | none => t
  | some refs =>
    let left := refs.filter fun x => x.1 ≠ id
    if left = ∅ then t.erase c else t.insert c left

/-- Attachments added one by one to entry `id`, whose names are in the slots `held` so far, or new. A slot in `spent`
was let go of under another name, and that lets go of it under every name. `none`: a name is given a slot that a name
still has from before. -/
def readd (id : EntryId) : Slots → List AttachmentId → List (Option AttachmentId) → Option Slots
  | t, _, [] => some t
  | t, spent, o :: held =>
    if some t.free ∈ o :: held ∧ t.free ∉ spent then none
    else match o.filter (· ∉ spent) with
      | none => readd id (t.take id) spent held
      | some c => readd id ((t.take id).letGo id c) (c :: spent) held

end Slots

/-- The back-references of the pool. -/
def slots (db : Database) : Slots := db.attachments.mapVals (·.entries)

theorem free_slots (db : Database) : (slots db).free = db.nextFree := by
  unfold Slots.free slots nextFree
  rw [Finmap.keys_mapVals]

theorem lookup_slots (db : Database) (c : AttachmentId) :
    (slots db).lookup c = (db.attachments.lookup c).map (·.entries) := Finmap.lookup_mapVals _ _ _

theorem slots_dropReference (db : Database) (id : EntryId) (c : AttachmentId) :
    slots (db.dropReference id c) = (slots db).letGo id c := by
  unfold dropReference Slots.letGo
  rw [lookup_slots]
  cases db.attachments.lookup c with
  | none => rfl
  | some a =>
    simp only [Option.map_some]
    split
    · exact Finmap.mapVals_erase _ _ _
    · exact Finmap.mapVals_insert _ _ _ _

/-! ## One attachment added -/

/-- The pool with `data` in its lowest free slot. -/
def stored (db : Database) (id : EntryId) (data : Value Bytes) : Pool :=
  db.attachments.insert db.nextFree { id := db.nextFree, entries := {(id, none)}, data := data }

theorem addAttachment_ok (h : db.addAttachment id name data = .ok db') : ∃ e m, db.entry id = some e ∧
    db'.entry id = some { e with attachments := m } ∧ (∀ x, x ≠ id → db'.entry x = db.entry x) ∧
    (∀ n, m.lookup n = (if n = name then some db.nextFree else e.attachments.lookup n).filter
      (fun c => e.attachments.lookup name ≠ some c)) ∧
    Drains (fun x c => x = id ∧ e.attachments.lookup name = some c) (stored db id data) db'.attachments ∧
    slots db' = match e.attachments.lookup name with
      | none => (slots db).take id
      | some c => ((slots db).take id).letGo id c := by
  simp only [addAttachment, Loop.bind_ok, expect_ok] at h
  obtain ⟨e, he, h⟩ := h
  have taken : (stored db id data).mapVals (·.entries) = (slots db).take id := by
    unfold stored Slots.take
    rw [Finmap.mapVals_insert, free_slots]; rfl
  cases hold : e.attachments.lookup name with
  | none =>
    rw [hold] at h
    obtain rfl := Loop.pure_ok.1 h
    refine ⟨e, e.attachments.insert name db.nextFree, he, ?_, fun x hx => ?_, fun n => ?_, ?_, ?_⟩
    · rw [entry_modifyEntry, if_pos rfl]
      exact congrArg (Option.map _) he
    · rw [entry_modifyEntry, if_neg hx]; rfl
    · rw [Finmap.lookup_insert_eq, hold]
      generalize (if n = name then some db.nextFree else e.attachments.lookup n) = o
      cases o <;> simp [Option.filter]
    · exact (Drains.refl _).congr fun x c => by simp [hold]
    · rw [hold]; exact taken
  | some old =>
    rw [hold] at h
    obtain rfl := Loop.pure_ok.1 h
    refine ⟨e, (e.attachments.insert name db.nextFree).filterVals (· ≠ old), he, ?_, fun x hx => ?_, fun n => ?_,
      ?_, ?_⟩
    · rw [removeAttachmentById, entry_dropReference, entry_modifyEntry, if_pos rfl, entry_modifyEntry, if_pos rfl,
        Option.map_map]
      exact congrArg (Option.map _) he
    · rw [removeAttachmentById, entry_dropReference, entry_modifyEntry, if_neg hx, entry_modifyEntry, if_neg hx]; rfl
    · rw [Finmap.lookup_filterVals, Finmap.lookup_insert_eq]
      congr 1
      funext c
      simp [hold, eq_comm]
    · refine (dropReference_drains (modifyEntry (modifyEntry { db with attachments := stored db id data } id _) id _)
        id old).congr fun x c => ?_
      simp [hold, eq_comm]
    · rw [removeAttachmentById, slots_dropReference, hold]
      exact congrArg (fun t : Slots => t.letGo id old) taken

/-! ## Rewriting one entry -/

/-- Entry `id` is rewritten, and lets go of some of the slots in `S`. -/
structure Refits (id : EntryId) (S : AttachmentId → Prop) (db db' : Database) : Prop where
  others : ∀ x, x ≠ id → db'.entry x = db.entry x
  untouched : ∀ c a, db.attachments.lookup c = some a → ¬ S c → ∃ a', db'.attachments.lookup c = some a' ∧
    a'.data = a.data ∧ a'.entries = a.entries
  held : ∀ c a r, db.attachments.lookup c = some a → r ∈ a.entries → r.1 ≠ id →
    ∃ a', db'.attachments.lookup c = some a' ∧ a'.data = a.data ∧ r ∈ a'.entries

namespace Refits

variable {S S' : AttachmentId → Prop}

theorem refl (id : EntryId) (S : AttachmentId → Prop) (db : Database) : Refits id S db db :=
  ⟨fun _ _ => rfl, fun _ a ha _ => ⟨a, ha, rfl, rfl⟩, fun _ a _ ha hr _ => ⟨a, ha, rfl, hr⟩⟩

theorem mono (h : Refits id S db db') (hS : ∀ c, S c → S' c) : Refits id S' db db' :=
  ⟨h.others, fun c a ha hc => h.untouched c a ha fun hS' => hc (hS c hS'), h.held⟩

theorem trans (h : Refits id S db t) (h' : Refits id S t db') : Refits id S db db' := by
  refine ⟨fun x hx => (h'.others x hx).trans (h.others x hx), fun c a ha hc => ?_, fun c a r ha hr hne => ?_⟩
  · obtain ⟨a', ha', hdata, hrefs⟩ := h.untouched c a ha hc
    obtain ⟨a'', ha'', hdata', hrefs'⟩ := h'.untouched c a' ha' hc
    exact ⟨a'', ha'', hdata'.trans hdata, hrefs'.trans hrefs⟩
  · obtain ⟨a', ha', hdata, hr'⟩ := h.held c a r ha hr hne
    obtain ⟨a'', ha'', hdata', hr''⟩ := h'.held c a' r ha' hr' hne
    exact ⟨a'', ha'', hdata'.trans hdata, hr''⟩

theorem of_drains {p : Pool} (others : ∀ x, x ≠ id → db'.entry x = db.entry x)
    (grown : ∀ c a, db.attachments.lookup c = some a → p.lookup c = some a)
    (h : Drains (fun x c => x = id ∧ S c) p db'.attachments) : Refits id S db db' := by
  refine ⟨others, fun c a ha hc => ?_, fun c a r ha hr hne => ?_⟩
  · obtain ⟨a', ha', hdata, hmem⟩ := h.left c a (grown c a ha) (.inl fun x hx => hc hx.2)
    exact ⟨a', ha', hdata, Finset.ext fun r => (hmem r).trans (and_iff_left fun hx => hc hx.2)⟩
  · obtain ⟨a', ha', hdata, hmem⟩ := h.left c a (grown c a ha) (.inr ⟨r, hr, fun hx => hne hx.1⟩)
    exact ⟨a', ha', hdata, (hmem r).2 ⟨hr, fun hx => hne hx.1⟩⟩

theorem bump (db : Database) (id : EntryId) (S : AttachmentId → Prop) (now : NaiveDateTime) :
    Refits id S db (bump db id now) := by
  refine ⟨fun x hx => ?_, fun c a ha _ => ⟨a, ha, rfl, rfl⟩, fun c a r ha hr _ => ⟨a, ha, rfl, hr⟩⟩
  unfold Falach.bump
  rw [entry_modifyEntry, if_neg hx]

/-- Letting go as foreseen does not empty a guarded slot. -/
theorem guarded {D : EntryId → AttachmentId → Prop} (h : Refits id S db db') (hS : ∀ c, S c → D id c)
    (hg : Guarded D db.attachments c data) : Guarded D db'.attachments c data := by
  obtain ⟨a, ha, rfl, hcases⟩ := hg
  by_cases hc : S c
  · obtain ⟨r, hr, hn⟩ := hcases.resolve_left fun hno => hno id (hS c hc)
    have hne : r.1 ≠ id := by intro heq; exact hn (heq ▸ hS c hc)
    obtain ⟨a', ha', hdata, hr'⟩ := h.held c a r ha hr hne
    exact ⟨a', ha', hdata, .inr ⟨r, hr', hn⟩⟩
  · obtain ⟨a', ha', hdata, hrefs⟩ := h.untouched c a ha hc
    exact ⟨a', ha', hdata, hrefs ▸ hcases⟩

end Refits

theorem lookup_stored (data : Value Bytes) (id : EntryId) {a : Attachment} (ha : db.attachments.lookup c = some a) :
    (stored db id data).lookup c = some a := by
  rw [stored, Finmap.lookup_insert_of_ne, ha]
  rintro rfl
  rw [lookup_nextFree] at ha; cases ha

theorem addAttachment_refits (h : db.addAttachment id name data = .ok db') :
    Refits id (fun c => ∃ e, db.entry id = some e ∧ e.attachments.lookup name = some c) db db' := by
  obtain ⟨e, m, he, -, others, -, hpool, -⟩ := addAttachment_ok h
  refine (Refits.of_drains others (fun c a ha => lookup_stored data id ha) hpool).mono fun c hc => ⟨e, he, hc⟩

theorem removeAttachmentByName_ok (h : db.removeAttachmentByName id name = .ok db') : ∃ e m, db.entry id = some e ∧
    db'.entry id = some { e with attachments := m } ∧ (∀ x, x ≠ id → db'.entry x = db.entry x) ∧
    (∀ n, m.lookup n = if n = name then none else e.attachments.lookup n) ∧
    Drains (fun x c => x = id ∧ e.attachments.lookup name = some c) db.attachments db'.attachments := by
  simp only [removeAttachmentByName, Loop.bind_ok, expect_ok] at h
  obtain ⟨e, he, h⟩ := h
  cases hold : e.attachments.lookup name with
  | none =>
    rw [hold] at h
    obtain rfl := Loop.pure_ok.1 h
    refine ⟨e, e.attachments, he, he, fun _ _ => rfl, fun n => ?_, ?_⟩
    · split
      · subst_vars; exact hold
      · rfl
    · exact (Drains.refl _).congr fun x c => by simp [hold]
  | some old =>
    rw [hold] at h
    obtain rfl := Loop.pure_ok.1 h
    refine ⟨e, e.attachments.erase name, he, ?_, fun x hx => ?_, fun n => Finmap.lookup_erase_eq name n _, ?_⟩
    · rw [entry_dropReference, entry_modifyEntry, if_pos rfl, he]; rfl
    · rw [entry_dropReference, entry_modifyEntry, if_neg hx]
    · refine (dropReference_drains (modifyEntry db id _) id old).congr fun x c => ?_
      simp [hold, eq_comm]

end Falach
