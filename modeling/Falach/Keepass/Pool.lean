import Falach.Keepass.Outcome
/-!
# The attachment pool

A slot of the pool goes when an entry lets go of it and no back-reference of another entry is left. So what becomes of
a slot depends on who lets go of it.
-/

namespace Keepass

abbrev Pool := HashMap AttachmentId Attachment

/-- An attachment of the version is in slot `c`. -/
def Version.Uses (v : Version) (c : AttachmentId) : Prop := ∃ name, v.attachments.lookup name = some c

variable {D D' : EntryId → AttachmentId → Prop} {p q r : Pool} {c : AttachmentId} {data : Value Bytes}

/-- `q` is the pool `p` after the entries let go of the slots that `D` says. -/
structure Drains (D : EntryId → AttachmentId → Prop) (p q : Pool) : Prop where
  empty : ∀ c, p.lookup c = none → q.lookup c = none
  erased : ∀ c a, p.lookup c = some a → (∃ x, D x c) → (∀ r ∈ a.entries, D r.1 c) → q.lookup c = none
  left : ∀ c a, p.lookup c = some a → ((∀ x, ¬ D x c) ∨ ∃ r ∈ a.entries, ¬ D r.1 c) →
    ∃ a', q.lookup c = some a' ∧ a'.data = a.data ∧ ∀ r, r ∈ a'.entries ↔ r ∈ a.entries ∧ ¬ D r.1 c

/-- Slot `c` holds `data`, and letting go of slots as `D` says does not empty it. -/
def Guarded (D : EntryId → AttachmentId → Prop) (p : Pool) (c : AttachmentId) (data : Value Bytes) : Prop :=
  ∃ a, p.lookup c = some a ∧ a.data = data ∧ ((∀ x, ¬ D x c) ∨ ∃ r ∈ a.entries, ¬ D r.1 c)

namespace Drains

theorem refl (p : Pool) : Drains (fun _ _ => False) p p :=
  ⟨fun _ h => h, fun _ _ _ ⟨_, hx⟩ => hx.elim, fun _ a ha _ => ⟨a, ha, rfl, by simp⟩⟩

theorem congr (h : Drains D p q) (hD : ∀ x c, D x c ↔ D' x c) : Drains D' p q := by
  obtain rfl : D = D' := funext fun x => funext fun c => propext (hD x c)
  exact h

/-- To let go of slots and then of more is to let go of all of them. -/
theorem trans (h : Drains D p q) (h' : Drains D' q r) : Drains (fun x c => D x c ∨ D' x c) p r := by
  refine ⟨fun c hc => h'.empty c (h.empty c hc), fun c a ha ⟨x, hx⟩ hall => ?_, fun c a ha hcases => ?_⟩
  · by_cases gone : (∃ x, D x c) ∧ ∀ r ∈ a.entries, D r.1 c
    · exact h'.empty c (h.erased c a ha gone.1 gone.2)
    -- the slot is still there when `D'` comes, which takes all that `D` has left
    have still : (∀ x, ¬ D x c) ∨ ∃ r ∈ a.entries, ¬ D r.1 c := by
      by_cases hD : ∃ x, D x c
      · exact .inr (by simpa using fun hno => gone ⟨hD, hno⟩)
      · exact .inl (not_exists.1 hD)
    obtain ⟨a', ha', -, hmem⟩ := h.left c a ha still
    refine h'.erased c a' ha' ?_ fun r hr => ?_
    · rcases still with hno | ⟨r, hr, hn⟩
      · exact ⟨x, hx.resolve_left (hno x)⟩
      · exact ⟨r.1, (hall r hr).resolve_left hn⟩
    · obtain ⟨hr, hn⟩ := (hmem r).1 hr
      exact (hall r hr).resolve_left hn
  · have hfirst : (∀ x, ¬ D x c) ∨ ∃ r ∈ a.entries, ¬ D r.1 c :=
      hcases.imp (fun hno x hx => hno x (.inl hx)) fun ⟨r, hr, hn⟩ => ⟨r, hr, fun hx => hn (.inl hx)⟩
    obtain ⟨a', ha', hdata, hmem⟩ := h.left c a ha hfirst
    have hsecond : (∀ x, ¬ D' x c) ∨ ∃ r ∈ a'.entries, ¬ D' r.1 c :=
      hcases.imp (fun hno x hx => hno x (.inr hx))
        fun ⟨r, hr, hn⟩ => ⟨r, (hmem r).2 ⟨hr, fun hx => hn (.inl hx)⟩, fun hx => hn (.inr hx)⟩
    obtain ⟨a'', ha'', hdata', hmem'⟩ := h'.left c a' ha' hsecond
    refine ⟨a'', ha'', hdata'.trans hdata, fun r => ?_⟩
    rw [hmem', hmem, not_or, and_assoc]

theorem guarded (h : Drains D' p q) (hD : ∀ x, D' x c → D x c) (hg : Guarded D p c data) : Guarded D q c data := by
  obtain ⟨a, ha, rfl, hcases⟩ := hg
  have hcases' : (∀ x, ¬ D' x c) ∨ ∃ r ∈ a.entries, ¬ D' r.1 c :=
    hcases.imp (fun hno x hx => hno x (hD x hx)) fun ⟨r, hr, hn⟩ => ⟨r, hr, fun hx => hn (hD r.1 hx)⟩
  obtain ⟨a', ha', hdata, hmem⟩ := h.left c a ha hcases'
  refine ⟨a', ha', hdata, hcases.imp_right fun ⟨r, hr, hn⟩ => ⟨r, (hmem r).2 ⟨hr, fun hx => hn (hD r.1 hx)⟩, hn⟩⟩

end Drains

namespace Database

variable {env : Env} {db db' dest source t : Database} {id : EntryId}

theorem dropReference_drains (db : Database) (id : EntryId) (att : AttachmentId) :
    Drains (fun x c => x = id ∧ c = att) db.attachments (db.dropReference id att).attachments := by
  have other : ∀ c, c ≠ att → (db.dropReference id att).attachments.lookup c = db.attachments.lookup c := by
    intro c hc
    unfold dropReference
    split
    · rfl
    · dsimp only
      split
      · exact Finmap.lookup_erase_ne hc
      · exact Finmap.lookup_insert_of_ne _ hc
  refine ⟨fun c hc => ?_, fun c a ha hx hall => ?_, fun c a ha hcases => ?_⟩
  · by_cases hca : c = att
    · subst hca
      unfold dropReference
      rw [hc]; exact hc
    · rw [other c hca]; exact hc
  · obtain ⟨x, rfl, rfl⟩ := hx
    unfold dropReference
    simp only [ha]
    rw [if_pos]
    · exact Finmap.lookup_erase c _
    · simpa [Finset.filter_eq_empty_iff] using fun r n hr => hall (r, n) hr
  · by_cases hca : c = att
    · subst hca
      obtain ⟨r, hr, hn⟩ := hcases.resolve_left fun hno => hno id ⟨rfl, rfl⟩
      refine ⟨{ a with entries := a.entries.filter fun x => x.1 ≠ id }, ?_, rfl, fun r => by simp⟩
      unfold dropReference
      simp only [ha]
      rw [if_neg]
      · exact Finmap.lookup_insert _
      · exact Finset.ne_empty_of_mem (Finset.mem_filter.2 ⟨hr, fun h => hn ⟨h, rfl⟩⟩)
    · exact ⟨a, (other c hca).trans ha, rfl, fun r => by simp [hca]⟩

/-! ## Removals -/

/-- `db'` is `db` without some entries, which let go of their slots. -/
structure Clears (db db' : Database) : Prop where
  entry : ∀ x e', db'.entry x = some e' → ∃ e, db.entry x = some e ∧ e'.attachments = e.attachments
  pool : Drains (fun x c => db'.entry x = none ∧ ∃ e, db.entry x = some e ∧ e.Uses c) db.attachments db'.attachments

namespace Clears

theorem of_kept (hatt : db'.attachments = db.attachments)
    (h : ∀ x, (db'.entry x).map (·.attachments) = (db.entry x).map (·.attachments)) : Clears db db' := by
  refine ⟨fun x e' he' => ?_, ?_⟩
  · have hx := h x
    rw [he', Option.map_some] at hx
    obtain ⟨e, he, heq⟩ := Option.map_eq_some_iff.1 hx.symm
    exact ⟨e, he, heq.symm⟩
  · rw [hatt]
    refine (Drains.refl _).congr fun x c => iff_of_false id ?_
    rintro ⟨hnone, e, he, -⟩
    have hx := h x
    rw [hnone, he] at hx; cases hx

theorem refl (db : Database) : Clears db db := of_kept rfl fun _ => rfl

theorem trans (h : Clears db t) (h' : Clears t db') : Clears db db' := by
  refine ⟨fun x e'' he'' => ?_, (h.pool.trans h'.pool).congr fun x c => ?_⟩
  · obtain ⟨e', he', hatt'⟩ := h'.entry x e'' he''
    obtain ⟨e, he, hatt⟩ := h.entry x e' he'
    exact ⟨e, he, hatt'.trans hatt⟩
  · have later : t.entry x = none → db'.entry x = none := by
      intro hnone
      by_contra hsome
      obtain ⟨e'', he''⟩ := Option.ne_none_iff_exists'.1 hsome
      obtain ⟨e', he', -⟩ := h'.entry x e'' he''
      rw [hnone] at he'; cases he'
    constructor
    · rintro (⟨hnone, he⟩ | ⟨hnone, e', he', name, hc⟩)
      · exact ⟨later hnone, he⟩
      · obtain ⟨e, he, hatt⟩ := h.entry x e' he'
        exact ⟨hnone, e, he, name, hatt ▸ hc⟩
    · rintro ⟨hnone, e, he, name, hc⟩
      cases hx : t.entry x with
      | none => exact .inl ⟨rfl, e, he, name, hc⟩
      | some e' =>
        obtain ⟨e₀, he₀, hatt⟩ := h.entry x e' hx
        rw [he, Option.some.injEq] at he₀; subst he₀
        exact .inr ⟨hnone, e', rfl, name, by rw [hatt]; exact hc⟩

end Clears

/-- The slots of the named attachments, let go of one by one. -/
theorem detach_drains {e : Entry} {names : List String}
    (h : names.foldlM (fun (db : Database) name => do
      let att ← expect (e.attachments.lookup name)
      let _ ← expect (db.attachments.lookup att)
      return db.dropReference id att) db = Except.ok db') :
    db'.entries = db.entries ∧
      Drains (fun x c => x = id ∧ ∃ name ∈ names,
        e.attachments.lookup name = some c) db.attachments db'.attachments := by
  induction names generalizing db with
  | nil =>
    cases h
    exact ⟨rfl, (Drains.refl _).congr fun x c => by simp⟩
  | cons name names ih =>
    obtain ⟨t, ht, h⟩ := Loop.foldlM_cons_ok.1 h
    simp only [Loop.bind_ok, expect_ok, Loop.pure_ok] at ht
    obtain ⟨att, hatt, -, -, rfl⟩ := ht
    obtain ⟨hentries, hpool⟩ := ih h
    refine ⟨hentries.trans (entries_dropReference db id att),
      ((dropReference_drains db id att).trans hpool).congr fun x c => ?_⟩
    simp only [List.mem_cons, exists_eq_or_imp, hatt, Option.some.injEq]
    rw [← and_or_left, eq_comm (a := c)]

theorem attachments_releaseEntryIcon (db : Database) (n : Option Nat) (icon : Option Icon) :
    (db.releaseEntryIcon id n icon).attachments = db.attachments := by
  unfold releaseEntryIcon; split <;> rfl

theorem attachments_releaseHistoryIcons (db : Database) (history : List Version) :
    (db.releaseHistoryIcons id history).attachments = db.attachments := by
  unfold releaseHistoryIcons
  generalize history.zipIdx = l
  induction l generalizing db with
  | nil => rfl
  | cons v l ih => exact (ih _).trans (attachments_releaseEntryIcon db _ _)

theorem removeEntry_clears (h : removeEntry env db id = .ok db') : Clears db db' := by
  obtain ⟨e, he, -, hentries, -⟩ := removeEntry_ok h
  simp only [removeEntry, Loop.bind_ok, expect_ok, Loop.pure_ok] at h
  obtain ⟨e', he', mid, hmid, -, -, rfl⟩ := h
  rw [he, Option.some.injEq] at he'; subst he'
  have entry : ∀ x, ((mid.entries.erase id).lookup x) = if x = id then none else db.entry x := by
    intro x
    rw [show mid.entries.erase id = db.entries.erase id from hentries]
    exact Finmap.lookup_erase_eq id x _
  obtain ⟨-, hpool⟩ := detach_drains hmid
  rw [attachments_releaseHistoryIcons, attachments_releaseEntryIcon] at hpool
  refine ⟨fun x e' he' => ⟨e', ?_, rfl⟩, hpool.congr fun x c => ?_⟩
  · have he' := (entry x).symm.trans he'
    split at he'
    · cases he'
    · exact he'
  · change _ ↔ (mid.entries.erase id).lookup x = none ∧ _
    rw [entry]
    by_cases hx : x = id
    · subst hx
      simp only [true_and, if_true, he, Option.some.injEq, exists_eq_left']
      refine exists_congr fun name => ⟨fun h => h.2, fun h => ⟨?_, h⟩⟩
      exact ((env.names .namesToDetach x).mem_list _).2 (Finmap.mem_keys.2 (Finmap.mem_of_lookup_eq_some h))
    · simp only [hx, false_and, if_false, false_iff]
      rintro ⟨hnone, e', he', -⟩
      rw [hnone] at he'; cases he'

theorem removeGroup_clears {n : Nat} {x : GroupId} (h : removeGroup env n db x = .ok db') : Clears db db' := by
  induction n generalizing db db' x with
  | zero => cases h
  | succ n ih =>
    simp only [removeGroup, Loop.bind_ok, expect_ok, Loop.pure_ok] at h
    obtain ⟨g, -, t₁, h₁, g₁, -, t₂, h₂, rfl⟩ := h
    have released := SameObjects.releaseGroupIcon db x g.icon
    have attachments : (db.releaseGroupIcon x g.icon).attachments = db.attachments := by
      unfold releaseGroupIcon; split <;> rfl
    have entries := Loop.foldlM_rel Clears .refl .trans (fun e _ u u' hstep => by
      split at hstep
      · exact removeEntry_clears hstep
      · rw [← Loop.pure_ok.1 hstep]; exact .refl u) h₁
    have groups := Loop.foldlM_rel Clears .refl .trans (fun c _ u u' hstep => by
      split at hstep
      · exact ih hstep
      · rw [← Loop.pure_ok.1 hstep]; exact .refl u) h₂
    refine ((Clears.trans ?_ entries).trans groups).trans (.of_kept rfl fun _ => rfl)
    split
    · exact .of_kept attachments fun i => congrArg _ (released.entry_eq i)
    · exact .of_kept attachments fun i => congrArg _ (released.entry_eq i)

theorem deleteGroups_clears {toDelete : List GroupId} (h : deleteGroups env toDelete db = .ok db') : Clears db db' :=
  Loop.foldlM_rel Clears .refl .trans (fun x _ u u' hstep => by
    split at hstep
    · exact removeGroup_clears hstep
    · rw [← Loop.pure_ok.1 hstep]; exact .refl u) h

theorem removeEntryFrom_clears (h : removeEntryFrom env source db id = .ok db') : Clears db db' := by
  simp only [removeEntryFrom, Loop.bind_ok, expect_ok] at h
  obtain ⟨d, -, h⟩ := h
  split at h
  · rw [← Loop.pure_ok.1 h]; exact .refl db
  · split at h
    · rw [← Loop.pure_ok.1 h]; exact .refl db
    · obtain ⟨t, ht, h⟩ := Loop.bind_ok.1 h
      rw [← Loop.pure_ok.1 h]
      exact (removeEntry_clears ht).trans (.of_kept rfl fun _ => rfl)

theorem mergeEntryInBoth_clears (hl : Linked db) (h : mergeEntryInBoth env source db id = .ok db') : Clears db db' := by
  obtain ⟨round, -, hatt, d, s, hd, -, hentry, -⟩ := mergeEntryInBoth_round hl h
  refine .of_kept hatt fun x => ?_
  by_cases hx : x = id
  · subst hx
    rw [hentry, hd, Option.map_some, Option.map_some, settled_attachments]
  · rw [round.others x hx]

/-! ## The whole merge -/

/-- The rounds for the entries of the source come first; from then on entries only go. -/
theorem mergeEntries_clears (hl : Linked db) (hs : Linked source) (h : mergeEntries env source db = .ok db') :
    ∃ joined, joined.attachments = db.attachments ∧ (∀ x, joined.entry x = (db.entry x).or (db'.entry x)) ∧
      Clears joined db' := by
  simp only [mergeEntries, Loop.bind_ok] at h
  obtain ⟨joined, h₁, t₂, h₂, h₃⟩ := h
  obtain ⟨⟨hl₁, hatt⟩, others₁, -⟩ :=
    Loop.foldlM_each Database.entry (fun u => Linked u ∧ u.attachments = db.attachments)
    ((env.ids .entriesToAdd).nodup_list _) (fun x _ u u' hu hstep => by
      obtain ⟨round, -, hatt, -⟩ := addEntryFrom_round hu.1 hs hstep
      exact ⟨⟨round.linked, hatt.trans hu.2⟩, round.others⟩) h₁ ⟨hl, rfl⟩
  obtain ⟨⟨hl₂, clears₂⟩, others₂, -⟩ := Loop.foldlM_each Database.entry (fun u => Linked u ∧ Clears joined u)
    ((env.ids .entriesToDelete).nodup_list _) (fun x _ u u' hu hstep => by
      obtain ⟨round, -⟩ := removeEntryFrom_round hu.1 hstep
      exact ⟨⟨round.linked, hu.2.trans (removeEntryFrom_clears hstep)⟩, round.others⟩) h₂ ⟨hl₁, .refl joined⟩
  obtain ⟨⟨-, clears₃⟩, others₃, -⟩ := Loop.foldlM_each Database.entry (fun u => Linked u ∧ Clears joined u)
    ((env.ids .entriesInBoth).nodup_list _) (fun x _ u u' hu hstep => by
      obtain ⟨round, -⟩ := mergeEntryInBoth_round hu.1 hstep
      exact ⟨⟨round.linked, hu.2.trans (mergeEntryInBoth_clears hu.1 hstep)⟩, round.others⟩) h₃ ⟨hl₂, clears₂⟩
  simp only [(env.ids _).mem_list, Finset.mem_sdiff, Finset.mem_inter] at others₁ others₂ others₃
  refine ⟨joined, hatt, fun x => ?_, clears₃⟩
  cases hx : db.entry x with
  | some e => rw [others₁ x fun h => h.2 (mem_of_entry_eq_some hx), hx, Option.some_or]
  | none =>
    have hx := notMem_of_entry_eq_none hx
    rw [others₃ x fun h => hx h.1, others₂ x fun h => hx h.1, Option.none_or]

/-- The entry `x` is in the way of the merge: it lands nowhere, or in a group that a deletion takes along, and lets go
of slot `c`. An entry only in the source comes with the numbers it has there. -/
def LeavesSlot (env : Env) (dest source : Database) (x : EntryId) (c : AttachmentId) : Prop :=
  ¬ EntryStays env dest source x ∧
    ((∃ d, dest.entry x = some d ∧ d.Uses c) ∨
      (dest.entry x = none ∧ ∃ s, source.entry x = some s ∧ (∃ p, Lands env dest source x p) ∧ s.Uses c))

/-- Nothing is let go of if every entry of either side stays. -/
theorem not_leavesSlot (h : ∀ id, id ∈ dest.entries ∨ id ∈ source.entries → EntryStays env dest source id) (x : EntryId)
    (c : AttachmentId) : ¬ LeavesSlot env dest source x c := by
  rintro ⟨hgone, ⟨d, hd, -⟩ | ⟨-, s, hs, -⟩⟩
  · exact hgone (h x (.inl ((mem_entries dest).2 ⟨d, hd⟩)))
  · exact hgone (h x (.inr ((mem_entries source).2 ⟨s, hs⟩)))

theorem merge_drains (hd : Linked dest) (hs : Linked source) (h : merge env dest source = .ok t) :
    Drains (LeavesSlot env dest source) dest.attachments t.attachments := by
  obtain ⟨m⟩ := merge_stages h
  have opened := m.opened hd hs
  have outcome := merge_outcome hd hs h
  obtain ⟨joined, hatt, hentry, clears⟩ := mergeEntries_clears opened.linked hs m.settled_eq
  have final := m.regrouped_round (m.felled_felled hd hs).1
  have whole := (clears.trans (deleteGroups_clears m.felled_eq)).trans
    (.of_kept final.attachments fun x => by rw [Database.entry, final.entries]; rfl)
  have stays : ∀ x, t.entry x = none ↔ ¬ EntryStays env dest source x := fun x => by
    rw [← outcome.mem_entries]; exact Finmap.notMem_iff_lookup.symm
  have hpool := whole.pool
  rw [hatt, opened.attachments] at hpool
  refine hpool.congr fun x c => and_congr (stays x) ?_
  rw [hentry, opened.entry]
  cases hx : dest.entry x with
  | some d => simp
  | none =>
    simp only [Option.none_or, opened.settles (m.settled_merged hd hs), reduceCtorEq, false_and, exists_false, true_and,
      false_or]
    constructor
    · rintro ⟨s, hsettles, hc⟩
      have hlands := lands_iff.2 ⟨s, hsettles, rfl⟩
      cases hsettles with
      | added _ hs' _ _ => exact ⟨s, hs', ⟨_, hlands⟩, hc⟩
      | kept hd' _ _ => rw [hx] at hd'; cases hd'
      | both hd' _ _ => rw [hx] at hd'; cases hd'
    · rintro ⟨s, hs', ⟨p, hlands⟩, hc⟩
      obtain ⟨e, hsettles, -⟩ := lands_iff.1 hlands
      cases hsettles with
      | added hd' hs'' hb hj =>
        rw [hs', Option.some.injEq] at hs''; subst hs''
        exact ⟨s, .added hd' hs' hb hj, hc⟩
      | kept hd' _ _ => rw [hx] at hd'; cases hd'
      | both hd' _ _ => rw [hx] at hd'; cases hd'

/-- The attachments of an entry are those it has in the destination, or in the source if it comes from there. -/
theorem Outcome.attachments (h : Outcome env dest source t) {e : Entry} (he : t.entry id = some e) :
    (∃ d, dest.entry id = some d ∧ e.attachments = d.attachments) ∨
      (dest.entry id = none ∧ source.entry id = some e) := by
  obtain ⟨hsettles, -⟩ := (h.entry id e).1 he
  cases hsettles with
  | added hd hs _ _ => exact .inr ⟨hd, hs⟩
  | kept hd _ _ => exact .inl ⟨e, hd, rfl⟩
  | both hd hs _ => exact .inl ⟨_, hd, settled_attachments _ _ _ _⟩

end Database

end Keepass
