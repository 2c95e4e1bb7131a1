import Falach.Keepass.Arrivals
/-!
# The rounds of `merge_entries`

Each round reads and writes one entry. What it makes of the entry depends on the two versions of it, on the tombstones
for it, and on which groups are there.
-/

namespace Keepass.Database

variable {env : Env} {source t t' u : Database} {id : EntryId} {d s e : Entry}

/-- What a round for the entry `id` keeps. -/
structure Round (id : EntryId) (t t' : Database) : Prop where
  linked : Linked t'
  root : t'.root = t.root
  mem : ∀ i, i ∈ t'.groups ↔ i ∈ t.groups
  parentOf : t'.parentOf = t.parentOf
  others : ∀ j, j ≠ id → t'.entry j = t.entry j
  tombstones : ∀ j, j ≠ id → t'.deletedObjects.lookup j = t.deletedObjects.lookup j

namespace Round

theorem refl (hl : Linked t) (id : EntryId) : Round id t t :=
  ⟨hl, rfl, fun _ => .rfl, rfl, fun _ _ => rfl, fun _ _ => rfl⟩

theorem trans (h : Round id t t') (h' : Round id t' u) : Round id t u :=
  ⟨h'.linked, h'.root.trans h.root, fun i => (h'.mem i).trans (h.mem i), h'.parentOf.trans h.parentOf,
    fun j hj => (h'.others j hj).trans (h.others j hj), fun j hj => (h'.tombstones j hj).trans (h.tombstones j hj)⟩

theorem of_edit {home : EntryId → Option GroupId} (hl : Linked t) (h : EntryEdit t t' home)
    (others : ∀ j, j ≠ id → t'.entry j = t.entry j) (tombstones : t'.deletedObjects = t.deletedObjects) :
    Round id t t' :=
  ⟨h.linkedBut hl, h.root, h.mem, h.parentOf_eq, others, fun _ _ => by rw [tombstones]⟩

theorem modifyEntry (hl : Linked t) (id : EntryId) {f : Entry → Entry} (hf : ∀ e, (f e).place = e.place) :
    Round id t (t.modifyEntry id f) := by
  have same := SameTree.modifyEntry t id hf
  exact ⟨same.linkedBut hl, same.root, fun _ => same.mem_groups_iff, same.parentOf_eq, fun j hj => by simp [hj],
    fun _ _ => rfl⟩

end Round

/-! ## Entries only in the source -/

/-- The tombstone keeps the source entry out. -/
def KeptOut (tombstone : Option (Option NaiveDateTime)) (s : Entry) : Prop :=
  ∃ deletion, tombstone = some deletion ∧ keptOut deletion s.times.lastUpdate = true

theorem addEntryFrom_round (hl : Linked t) (hs : Linked source) (h : addEntryFrom source t id = .ok t') :
    Round id t t' ∧ t'.deletedObjects = t.deletedObjects ∧ t'.attachments = t.attachments ∧
      ∃ s, source.entry id = some s ∧
        ((¬ KeptOut (t.deletedObjects.lookup id) s ∧ s.parent ∈ t.groups ∧ t'.entry id = some s) ∨
        ((KeptOut (t.deletedObjects.lookup id) s ∨ s.parent ∉ t.groups) ∧ t' = t)) := by
  simp only [addEntryFrom, Loop.bind_ok, expect_ok] at h
  obtain ⟨s, hsid, h⟩ := h
  have branch : (KeptOut (t.deletedObjects.lookup id) s ∧ t = t') ∨ (¬ KeptOut (t.deletedObjects.lookup id) s ∧
      (expect (source.group s.parent) >>= fun _ =>
        if s.parent ∈ t.groups then t.addEntryWithId s.parent id s else pure t) = .ok t') := by
    cases hdel : t.deletedObjects.lookup id with
    | none => exact .inr ⟨by simp [KeptOut], by simpa [hdel] using h⟩
    | some deletion =>
      cases hk : keptOut deletion s.times.lastUpdate with
      | true => exact .inl ⟨⟨deletion, rfl, hk⟩, by simpa [hdel, hk] using h⟩
      | false => exact .inr ⟨by simp [KeptOut, hk], by simpa [hdel, hk] using h⟩
  rcases branch with ⟨hk, rfl⟩ | ⟨hk, h⟩
  · exact ⟨.refl hl id, rfl, rfl, s, hsid, .inr ⟨.inl hk, rfl⟩⟩
  · obtain ⟨_, -, h⟩ := Loop.bind_ok.1 h
    split at h
    · rename_i hp
      obtain ⟨-, heq⟩ := addEntryWithId_ok h
      have entry : ∀ j, t'.entry j = if j = id then some s else t.entry j := by
        intro j; rw [heq]; exact Finmap.lookup_insert_eq id j s _
      have edit := addEntryWithId_edit hl (hs.entry_id hsid) rfl hp h
      refine ⟨.of_edit hl edit (fun j hj => by
        rw [entry, if_neg hj]) (by rw [heq]; rfl), by rw [heq]; rfl, by rw [heq]; rfl,
        s, hsid, .inl ⟨hk, hp, by rw [entry, if_pos rfl]⟩⟩
    · rw [← Loop.pure_ok.1 h]
      exact ⟨.refl hl id, rfl, rfl, s, hsid, .inr ⟨.inr ‹_›, rfl⟩⟩

/-! ## Entries only in the destination -/

/-- The source has a tombstone that the destination entry has not outlived. -/
def Deleted (source : Database) (id : EntryId) (d : Entry) : Prop :=
  ∃ deletion, source.deletedObjects.lookup id = some deletion ∧ outlived deletion d.times.lastUpdate = false

theorem removeEntryFrom_round (hl : Linked t) (h : removeEntryFrom env source t id = .ok t') :
    Round id t t' ∧ ∃ d, t.entry id = some d ∧
      ((Deleted source id d ∧ t'.entry id = none ∧ t'.deletedObjects.lookup id = source.deletedObjects.lookup id) ∨
      (¬ Deleted source id d ∧ t' = t)) := by
  simp only [removeEntryFrom, Loop.bind_ok, expect_ok] at h
  obtain ⟨d, hd, h⟩ := h
  cases hdel : source.deletedObjects.lookup id with
  | none =>
    simp only [hdel, Loop.pure_ok] at h
    subst h
    refine ⟨.refl hl id, d, hd, .inr ⟨?_, rfl⟩⟩
    rintro ⟨_, hdel', -⟩
    rw [hdel] at hdel'; cases hdel'
  | some deletion =>
    simp only [hdel] at h
    split at h
    · rename_i hout
      rw [← Loop.pure_ok.1 h]
      refine ⟨.refl hl id, d, hd, .inr ⟨?_, rfl⟩⟩
      rintro ⟨_, hdel', hout'⟩
      rw [hdel, Option.some.injEq] at hdel'; subst hdel'
      rw [hout] at hout'; cases hout'
    · rename_i hout
      obtain ⟨t₁, ht₁, h⟩ := Loop.bind_ok.1 h
      obtain ⟨d', hd', _, hentries, hdeleted⟩ := removeEntry_ok ht₁
      obtain ⟨hl₁, hroot, hmem, hparent, -⟩ := removeEntry_linked hl ht₁
      have entry : ∀ j, t₁.entry j = if j = id then none else t.entry j := by
        intro j; rw [Database.entry, hentries]; exact Finmap.lookup_erase_eq id j _
      obtain rfl := Loop.pure_ok.1 h
      have same : SameTree t₁ { t₁ with deletedObjects := t₁.deletedObjects.insert id deletion } := .of_eq rfl rfl rfl
      refine ⟨⟨same.linkedBut hl₁, hroot, hmem, same.parentOf_eq.trans hparent, fun j hj => ?_, fun j hj => ?_⟩, d, hd,
        .inl ⟨⟨deletion, hdel, by simpa using hout⟩, ?_, ?_⟩⟩
      · exact (entry j).trans (if_neg hj)
      · exact (Finmap.lookup_insert_of_ne _ hj).trans (by rw [hdeleted])
      · exact (entry id).trans (if_pos rfl)
      · exact Finmap.lookup_insert _

/-! ## Entries on both sides -/

/-- The destination entry where the source has moved it, if the source moved it later and the group is `present`. -/
def followed (present : Bool) (d s : Entry) : Entry :=
  match s.times.locationChanged, d.times.locationChanged with
  | some slc, some dlc =>
    if d.parent ≠ s.parent ∧ slc > dlc ∧ present = true then
      { d with parent := s.parent, times := { d.times with locationChanged := some slc } }
    else d
  | _, _ => d

theorem followMove_round (hl : Linked t) (hd : t.entry id = some d) (h : followMove source t d s id = .ok t') :
    Round id t t' ∧ t'.deletedObjects = t.deletedObjects ∧ t'.attachments = t.attachments ∧
      t'.entry id = some (followed (decide (s.parent ∈ t.groups)) d s) := by
  obtain ⟨_, -, h⟩ := Loop.bind_ok.1 h
  obtain ⟨_, -, h⟩ := Loop.bind_ok.1 h
  -- in every branch but one nothing is done
  have stays : followed (decide (s.parent ∈ t.groups)) d s = d → t' = t → Round id t t' ∧
      t'.deletedObjects = t.deletedObjects ∧ t'.attachments = t.attachments ∧
      t'.entry id = some (followed (decide (s.parent ∈ t.groups)) d s) := by
    rintro hf rfl
    exact ⟨.refl hl id, rfl, rfl, by rw [hf]; exact hd⟩
  split at h
  · rename_i hne
    split at h
    · rename_i slc dlc hslc hdlc
      unfold followed at stays ⊢
      simp only [hslc, hdlc] at stays ⊢
      split at h
      · rename_i hlater
        obtain ⟨moved, hm, h⟩ := Loop.bind_ok.1 h
        cases moved with
        | none =>
          refine stays (if_neg ?_) (Loop.pure_ok.1 h).symm
          unfold moveEntryTo at hm
          split at hm
          · simp only [Loop.bind_ok, Loop.pure_ok] at hm
            obtain ⟨_, _, _, _, hm⟩ := hm
            cases hm
          · simp [*]
        | some t₁ =>
          obtain ⟨hq, d', hd', ht₁⟩ := moveEntryTo_ok hm
          rw [hd, Option.some.injEq] at hd'; subst hd'
          have entry : ∀ j, t₁.entry j = if j = id then some { d with parent := s.parent } else t.entry j := by
            intro j
            rw [ht₁, entry_modifyEntry, entry_modifyGroup, entry_modifyGroup, entry_modifyGroup, entry_modifyGroup, hd]
            rfl
          have edit := moveEntryTo_edit hl hm
          have moved : Round id t t₁ := .of_edit hl edit (fun j hj => by rw [entry, if_neg hj]) (by rw [ht₁]; rfl)
          obtain rfl := Loop.pure_ok.1 h
          refine ⟨moved.trans (.modifyEntry moved.linked id fun _ => rfl), ?_, ?_, ?_⟩
          · rw [deletedObjects_modifyEntry, ht₁]; rfl
          · rw [attachments_modifyEntry, ht₁]; rfl
          · rw [entry_modifyEntry, if_pos rfl, entry, if_pos rfl, if_pos ⟨hne, hlater, by simpa using hq⟩]
            rfl
      · refine stays (if_neg ?_) (Loop.pure_ok.1 h).symm
        simp [*]
    · rename_i hnone
      refine stays ?_ (Loop.pure_ok.1 h).symm
      unfold followed
      split
      · exact (hnone _ _ ‹_› ‹_›).elim
      · rfl
  · rename_i heq
    refine stays ?_ (Loop.pure_ok.1 h).symm
    unfold followed
    split
    · rw [if_neg]; simp [heq]
    · rfl

/-- What a round makes of an entry on both sides. -/
def settled (present : Bool) (now : NaiveDateTime) (d s : Entry) : Entry :=
  let d := followed present d s
  let slm := s.times.lastModification.getD Times.epoch
  let dlm := d.times.lastModification.getD now
  if dlm = slm then d else mergedEntry d s dlm slm

@[simp] theorem followed_lastModification (present : Bool) (d s : Entry) :
    (followed present d s).times.lastModification = d.times.lastModification := by
  unfold followed; split
  · split <;> rfl
  · rfl

@[simp] theorem followed_attachments (present : Bool) (d s : Entry) :
    (followed present d s).attachments = d.attachments := by
  unfold followed; split
  · split <;> rfl
  · rfl

/-- The merge itself never changes which attachments an entry has. -/
@[simp] theorem settled_attachments (present : Bool) (now : NaiveDateTime) (d s : Entry) :
    (settled present now d s).attachments = d.attachments := by
  unfold settled
  dsimp only
  split
  · exact followed_attachments present d s
  · refine Eq.trans ?_ (followed_attachments present d s)
    unfold mergedEntry
    dsimp only
    split <;> rfl

theorem mergedEntry_place (d s : Entry) (dlm slm : NaiveDateTime) : (mergedEntry d s dlm slm).place = d.place := by
  unfold mergedEntry; dsimp only; split <;> rfl

theorem mergeEntryInBoth_round (hl : Linked t) (h : mergeEntryInBoth env source t id = .ok t') :
    Round id t t' ∧ t'.deletedObjects = t.deletedObjects ∧ t'.attachments = t.attachments ∧
      ∃ d s, t.entry id = some d ∧ source.entry id = some s ∧
        t'.entry id = some (settled (decide (s.parent ∈ t.groups)) (env.now .entriesInBoth id) d s) ∧
        (d.times.lastModification.getD (env.now .entriesInBoth id) = s.times.lastModification.getD Times.epoch →
          ¬ haveEntriesDiverged (followed (decide (s.parent ∈ t.groups)) d s).toVersion s.toVersion) := by
  simp only [mergeEntryInBoth, Loop.bind_ok, expect_ok] at h
  obtain ⟨d, hd, s, hs, t₁, ht₁, d₁, hd₁, h⟩ := h
  obtain ⟨round, hdel, hatt, hentry⟩ := followMove_round hl hd ht₁
  rw [hd₁, Option.some.injEq] at hentry
  have hlm : d₁.times.lastModification = d.times.lastModification := by rw [hentry, followed_lastModification]
  have hset : settled (decide (s.parent ∈ t.groups)) (env.now .entriesInBoth id) d s =
      if d₁.times.lastModification.getD (env.now .entriesInBoth id) = s.times.lastModification.getD Times.epoch then d₁
      else mergedEntry d₁ s (d₁.times.lastModification.getD (env.now .entriesInBoth id))
        (s.times.lastModification.getD Times.epoch) := by
    rw [hentry]; rfl
  split at h
  · rename_i htie
    split at h
    · cases h
    · rename_i hsame
      obtain rfl := Loop.pure_ok.1 h
      exact ⟨round, hdel, hatt, d, s, hd, hs, by rw [hd₁, hset, if_pos htie], fun _ => by rw [← hentry]; exact hsame⟩
  · rename_i hne
    obtain rfl := Loop.pure_ok.1 h
    refine ⟨round.trans (.modifyEntry round.linked id fun _ => mergedEntry_place _ _ _ _), by simpa using hdel,
      by simpa using hatt, d, s, hd, hs, ?_, fun htie => ?_⟩
    · rw [entry_modifyEntry, if_pos rfl, hd₁, hset, if_neg hne]; rfl
    · rw [hlm] at hne; exact absurd htie hne

end Keepass.Database
