import Falach.Keepass.Pool
/-!
# What is left of a group

Besides the lists of their children, the groups that stay change in one respect before the group rounds: when an entry
is removed, every group it was the top-visible entry of forgets it.
-/

namespace Keepass

/-- The group with its top-visible entry only if `keep` keeps it. -/
def Group.trim (keep : EntryId → Bool) (g : Group) : Group :=
  { g with lastTopVisibleEntry := g.lastTopVisibleEntry.filter keep }

theorem Group.trim_true {keep : EntryId → Bool} {g : Group} (h : ∀ e, keep e = true) : g.trim keep = g := by
  have top : g.lastTopVisibleEntry.filter keep = g.lastTopVisibleEntry := by
    cases g.lastTopVisibleEntry with
    | none => rfl
    | some e => simp [Option.filter, h e]
  rw [trim, top]

theorem Group.trim_trim {keep keep' : EntryId → Bool} (g : Group) :
    (g.trim keep).trim keep' = g.trim fun e => keep e && keep' e := by
  unfold trim
  rw [Option.filter_filter]

namespace Database

variable {env : Env} {db db' t source : Database} {id : Uuid}

/-- Entries have gone, and with them what groups said about them. -/
structure Trims (db db' : Database) : Prop where
  entries : ∀ e, e ∈ db'.entries → e ∈ db.entries
  group : ∀ i g', db'.group i = some g' → ∃ g, db.group i = some g ∧
    g'.bare = g.bare.trim fun e => e ∉ db.entries ∨ e ∈ db'.entries

namespace Trims

theorem of_kept (hentries : ∀ e, e ∈ db'.entries ↔ e ∈ db.entries)
    (h : ∀ i, (db'.group i).map Group.bare = (db.group i).map Group.bare) : Trims db db' := by
  refine ⟨fun e he => (hentries e).1 he, fun i g' hg' => ?_⟩
  have hi := h i
  rw [hg', Option.map_some] at hi
  obtain ⟨g, hg, hbare⟩ := Option.map_eq_some_iff.1 hi.symm
  refine ⟨g, hg, hbare.symm.trans (Group.trim_true fun e => ?_).symm⟩
  simp only [hentries, decide_eq_true_eq]
  exact (em _).symm

theorem refl (db : Database) : Trims db db := of_kept (fun _ => .rfl) fun _ => rfl

theorem trans (h : Trims db t) (h' : Trims t db') : Trims db db' := by
  refine ⟨fun e he => h.entries e (h'.entries e he), fun i g'' hg'' => ?_⟩
  obtain ⟨g', hg', hb'⟩ := h'.group i g'' hg''
  obtain ⟨g, hg, hb⟩ := h.group i g' hg'
  refine ⟨g, hg, ?_⟩
  rw [hb', hb, Group.trim_trim]
  congr 1
  funext e
  have later : e ∈ db'.entries → e ∈ t.entries := h'.entries e
  have earlier : e ∈ t.entries → e ∈ db.entries := h.entries e
  rw [Bool.eq_iff_iff]
  simp only [Bool.and_eq_true, decide_eq_true_eq]
  tauto

/-- A group that is there at the end, from before a step that only other groups noticed. -/
theorem skip {x : GroupId} (hentries : ∀ e, e ∈ t.entries ↔ e ∈ db.entries)
    (h : ∀ i, i ≠ x → (t.group i).map Group.bare = (db.group i).map Group.bare) (h' : Trims t db')
    (hx : x ∉ db'.groups) : Trims db db' := by
  refine ⟨fun e he => (hentries e).1 (h'.entries e he), fun i g' hg' => ?_⟩
  obtain ⟨g₁, hg₁, hb⟩ := h'.group i g' hg'
  have hix : i ≠ x := by rintro rfl; exact hx ((mem_groups db').2 ⟨g', hg'⟩)
  have hi := h i hix
  rw [hg₁, Option.map_some] at hi
  obtain ⟨g, hg, hbare⟩ := Option.map_eq_some_iff.1 hi.symm
  refine ⟨g, hg, ?_⟩
  rw [hb, hbare]
  congr 1
  funext e
  rw [decide_eq_decide, hentries]

end Trims

theorem removeEntry_trims (h : removeEntry env db id = .ok db') : Trims db db' := by
  obtain ⟨e₀, he₀, -, hentries, -⟩ := removeEntry_ok h
  simp only [removeEntry, Loop.bind_ok, expect_ok, Loop.pure_ok] at h
  obtain ⟨e, -, mid, hmid, -, -, rfl⟩ := h
  have released := (SameObjects.releaseEntryIcon db id none e.icon).trans
    (.releaseHistoryIcons _ id (e.history.getD []))
  have dropped := Loop.foldlM_rel SameObjects .refl .trans (fun name _ t t' ht => by
    obtain ⟨_, _, ht⟩ := Loop.bind_ok.1 ht
    obtain ⟨_, _, ht⟩ := Loop.bind_ok.1 ht
    rw [← Loop.pure_ok.1 ht]
    exact .dropReference t id _) hmid
  have same := released.trans dropped
  have hid : id ∈ db.entries := (mem_entries db).2 ⟨e₀, he₀⟩
  have mem : ∀ x, x ∈ mid.entries.erase id ↔ x ≠ id ∧ x ∈ db.entries := fun x => by
    rw [Finmap.mem_erase, same.entries]
  refine ⟨fun x hx => ((mem x).1 hx).2, fun i g' hg' => ?_⟩
  obtain ⟨g₂, hg₂, rfl⟩ := Option.map_eq_some_iff.1 ((Finmap.lookup_mapVals _ _ _).symm.trans hg')
  obtain ⟨g₁, hg₁, hg₁₂⟩ := @group_modifyGroup_some { mid with entries := mid.entries.erase id } _ _ _ _ hg₂
  refine ⟨g₁, (same.group_eq i).symm.trans hg₁, ?_⟩
  have bare : g₂.bare = g₁.bare := by rw [hg₁₂]; split <;> rfl
  have keep : (fun e => decide (e ∉ db.entries ∨ e ∈ mid.entries.erase id)) = fun e => decide (e ≠ id) := by
    funext x
    rw [decide_eq_decide, mem]
    by_cases hx : x = id
    · subst hx; simp [hid]
    · simp only [hx, not_false_eq_true, ne_eq, true_and, iff_true]
      exact (em _).symm
  change _ = g₁.bare.trim fun e => decide (e ∉ db.entries ∨ e ∈ mid.entries.erase id)
  rw [keep, ← bare]
  have top : (if g₂.lastTopVisibleEntry = some id then none else g₂.lastTopVisibleEntry) =
      g₂.lastTopVisibleEntry.filter fun e => decide (e ≠ id) := by
    cases g₂.lastTopVisibleEntry with
    | none => rfl
    | some e => by_cases he : e = id <;> simp [Option.filter, he]
  unfold Group.trim
  change _ = { g₂.bare with lastTopVisibleEntry := g₂.lastTopVisibleEntry.filter fun e => decide (e ≠ id) }
  rw [← top]
  split <;> rfl

theorem removeGroup_trims {n : Nat} {x : GroupId} (h : removeGroup env n db x = .ok db') : Trims db db' := by
  induction n generalizing db db' x with
  | zero => cases h
  | succ n ih =>
    simp only [removeGroup, Loop.bind_ok, expect_ok, Loop.pure_ok] at h
    obtain ⟨g, -, t₁, h₁, g₁, -, t₂, h₂, rfl⟩ := h
    have released := SameObjects.releaseGroupIcon db x g.icon
    have entries := Loop.foldlM_rel Trims .refl .trans (fun e _ u u' hstep => by
      split at hstep
      · exact removeEntry_trims hstep
      · rw [← Loop.pure_ok.1 hstep]; exact .refl u) h₁
    have groups := Loop.foldlM_rel Trims .refl .trans (fun c _ u u' hstep => by
      split at hstep
      · exact ih hstep
      · rw [← Loop.pure_ok.1 hstep]; exact .refl u) h₂
    have erased : Trims t₂ { t₂ with groups := t₂.groups.erase x, «meta» := clearMetaReferences t₂.meta x } := by
      refine ⟨fun e he => he, fun i g' hg' => ⟨g', ?_, (Group.trim_true fun e => ?_).symm⟩⟩
      · have hg' := (Finmap.lookup_erase_eq x i t₂.groups).symm.trans hg'
        split at hg'
        · cases hg'
        · exact hg'
      · rw [decide_eq_true_eq]
        exact (em _).symm
    -- the icon of the group itself is gone before the group is
    refine Trims.skip (x := x) ?_ ?_ ((entries.trans groups).trans erased)
      fun hx => (Finmap.mem_erase.1 hx).1 rfl
    · intro e
      split
      · exact iff_of_eq (congrArg (e ∈ ·) released.entries)
      · exact iff_of_eq (congrArg (e ∈ ·) released.entries)
    · intro i hi
      split
      · rw [bare_modifyGroup, group_modifyGroup, if_neg hi, released.group_eq]; intro g; rfl
      · rw [group_modifyGroup, if_neg hi, released.group_eq]

theorem deleteGroups_trims {toDelete : List GroupId} (h : deleteGroups env toDelete db = .ok db') : Trims db db' :=
  Loop.foldlM_rel Trims .refl .trans (fun x _ u u' hstep => by
    split at hstep
    · exact removeGroup_trims hstep
    · rw [← Loop.pure_ok.1 hstep]; exact .refl u) h

theorem removeEntryFrom_trims (h : removeEntryFrom env source db id = .ok db') : Trims db db' := by
  simp only [removeEntryFrom, Loop.bind_ok, expect_ok] at h
  obtain ⟨d, -, h⟩ := h
  split at h
  · rw [← Loop.pure_ok.1 h]; exact .refl db
  · split at h
    · rw [← Loop.pure_ok.1 h]; exact .refl db
    · obtain ⟨t, ht, h⟩ := Loop.bind_ok.1 h
      rw [← Loop.pure_ok.1 h]
      exact (removeEntry_trims ht).trans (.of_kept (fun _ => .rfl) fun _ => rfl)

end Database

end Keepass
