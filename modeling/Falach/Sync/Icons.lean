import Falach.Sync.Reconcile
/-!
# Icons under a merge

A merge drops back-references to icons. The icons themselves stay as the destination has them.
-/

namespace Keepass

open Database

variable {env : Env} {db db' t source dest : Database} {id p : Uuid}

/-- The icons, without who uses them. -/
def Database.iconData (db : Database) : HashMap CustomIconId (CustomIconId × Bytes) :=
  db.customIcons.mapVals fun icon => (icon.id, icon.data)

/-- The icons are filed under their ids. -/
def Database.IconsFiled (db : Database) : Prop := ∀ cid icon, db.customIcons.lookup cid = some icon → icon.id = cid

theorem iconsFiled_iff : db.IconsFiled ↔ ∀ cid data, db.iconData.lookup cid = some data → data.1 = cid := by
  unfold Database.IconsFiled Database.iconData
  simp only [Finmap.lookup_mapVals]
  constructor
  · intro h cid data hdata
    obtain ⟨icon, hicon, rfl⟩ := Option.map_eq_some_iff.1 hdata
    exact h cid icon hicon
  · exact fun h cid icon hicon => h cid _ (Option.map_eq_some_iff.2 ⟨icon, hicon, rfl⟩)

theorem Database.IconsFiled.of_iconData (h : db.IconsFiled) (hsame : db'.iconData = db.iconData) : db'.IconsFiled :=
  iconsFiled_iff.2 fun cid data hdata => iconsFiled_iff.1 h cid data (hsame ▸ hdata)

/-! ## Edits -/

theorem iconData_modify {cid : CustomIconId} {f : CustomIcon → CustomIcon}
    (hf : ∀ icon, (f icon).id = icon.id ∧ (f icon).data = icon.data) :
    ({ db with customIcons := db.customIcons.modify cid f } : Database).iconData = db.iconData := by
  refine Finmap.ext_lookup fun k => ?_
  rw [iconData, iconData, Finmap.lookup_mapVals, Finmap.lookup_mapVals, Finmap.lookup_modify]
  by_cases hk : k = cid
  · rw [if_pos hk, hk, Option.map_map]
    refine congrArg (Option.map · _) (funext fun icon => ?_)
    exact Prod.ext (hf icon).1 (hf icon).2
  · rw [if_neg hk]

theorem releaseEntryIcon_iconData (historyIndex : Option Nat) (icon : Option Icon) :
    (db.releaseEntryIcon id historyIndex icon).iconData = db.iconData := by
  unfold releaseEntryIcon
  split
  · exact iconData_modify fun _ => ⟨rfl, rfl⟩
  · rfl

theorem releaseGroupIcon_iconData (icon : Option Icon) : (db.releaseGroupIcon id icon).iconData = db.iconData := by
  unfold releaseGroupIcon
  split
  · exact iconData_modify fun _ => ⟨rfl, rfl⟩
  · rfl

theorem releaseHistoryIcons_iconData (history : List Version) :
    (db.releaseHistoryIcons id history).iconData = db.iconData := by
  unfold releaseHistoryIcons
  generalize history.zipIdx = versions
  induction versions generalizing db with
  | nil => rfl
  | cons v versions ih => exact ih.trans (releaseEntryIcon_iconData _ _)

theorem dropReference_iconData (att : AttachmentId) : (db.dropReference id att).iconData = db.iconData := by
  obtain ⟨pool, h⟩ := dropReference_eq db id att
  rw [h]
  rfl

theorem addAttachment_iconData {name : String} {data : Value Bytes} (h : db.addAttachment id name data = .ok db') :
    db'.iconData = db.iconData := by
  simp only [addAttachment, Loop.bind_ok] at h
  obtain ⟨e, -, h⟩ := h
  split at h
  · rw [← Loop.pure_ok.1 h]
    exact dropReference_iconData _
  · rw [← Loop.pure_ok.1 h]
    rfl

theorem removeAttachmentByName_iconData {name : String} (h : db.removeAttachmentByName id name = .ok db') :
    db'.iconData = db.iconData := by
  simp only [removeAttachmentByName, Loop.bind_ok] at h
  obtain ⟨e, -, h⟩ := h
  split at h
  · rw [← Loop.pure_ok.1 h]
  · rw [← Loop.pure_ok.1 h]
    exact dropReference_iconData _

theorem moveEntryTo_iconData (h : db.moveEntryTo id p = .ok (some db')) : db'.iconData = db.iconData := by
  unfold moveEntryTo at h
  split at h
  · simp only [Loop.bind_ok] at h
    obtain ⟨e, -, g, -, h⟩ := h
    rw [← Option.some.inj (Loop.pure_ok.1 h)]
    rfl
  · cases Loop.pure_ok.1 h

theorem removeEntry_iconData (h : db.removeEntry env id = .ok db') : db'.iconData = db.iconData := by
  simp only [removeEntry, Loop.bind_ok] at h
  obtain ⟨e, -, t, ht, g, -, h⟩ := h
  rw [← Loop.pure_ok.1 h]
  have hdetached : t.iconData = ((db.releaseEntryIcon id none e.icon).releaseHistoryIcons id (e.history.getD [])).iconData :=
    Loop.foldlM_inv (fun u : Database => u.iconData = _) (fun name _ u u' hu hstep => by
      obtain ⟨att, -, hstep⟩ := Loop.bind_ok.1 hstep
      obtain ⟨a, -, hstep⟩ := Loop.bind_ok.1 hstep
      rw [← Loop.pure_ok.1 hstep, dropReference_iconData, hu]) ht rfl
  exact hdetached.trans ((releaseHistoryIcons_iconData _).trans (releaseEntryIcon_iconData _ _))

theorem addEntryWithId_iconData {e : Entry} (h : db.addEntryWithId p id e = .ok db') : db'.iconData = db.iconData := by
  unfold addEntryWithId at h
  split at h
  · cases h
  · cases h
    rfl

theorem addGroupWithId_iconData {g : Group} (h : db.addGroupWithId p id g = .ok db') : db'.iconData = db.iconData := by
  unfold addGroupWithId at h
  split at h
  · cases h
  · cases h
    rfl

theorem moveGroupTo_iconData (h : db.moveGroupTo id p = .ok (.ok db')) : db'.iconData = db.iconData := by
  simp only [moveGroupTo, Loop.bind_ok] at h
  obtain ⟨g, -, h⟩ := h
  split at h
  · cases Loop.pure_ok.1 h
  · split at h
    · cases Loop.pure_ok.1 h
    · obtain ⟨up, -, h⟩ := Loop.bind_ok.1 h
      split at h
      · cases Loop.pure_ok.1 h
      · obtain ⟨_, -, h⟩ := Loop.bind_ok.1 h
        rw [← Except.ok.inj (Loop.pure_ok.1 h)]
        rfl

theorem removeGroup_iconData {n : Nat} (h : removeGroup env n db id = .ok db') : db'.iconData = db.iconData := by
  induction n generalizing db id db' with
  | zero => cases h
  | succ n ih =>
    simp only [removeGroup, Loop.bind_ok] at h
    obtain ⟨g, -, t, ht, g', -, u, hu, h⟩ := h
    rw [← Loop.pure_ok.1 h]
    have hentries : t.iconData = db.iconData := by
      refine Loop.foldlM_inv (fun u : Database => u.iconData = db.iconData) (fun e _ u u' hu hstep => ?_) ht ?_
      · split at hstep
        · exact (removeEntry_iconData hstep).trans hu
        · rw [← Loop.pure_ok.1 hstep]
          exact hu
      · split
        · exact releaseGroupIcon_iconData _
        · exact releaseGroupIcon_iconData _
    have hgroups : u.iconData = db.iconData := by
      refine Loop.foldlM_inv (fun u : Database => u.iconData = db.iconData) (fun c _ u u' hu hstep => ?_) hu hentries
      split at hstep
      · exact (ih hstep).trans hu
      · rw [← Loop.pure_ok.1 hstep]
        exact hu
    exact hgroups

/-! ## The merge -/

theorem addGroups_iconData {n : Nat} {toAdd : Finset GroupId} {stack : List GroupId}
    (h : addGroups env source n toAdd stack dest = .ok t) : t.iconData = dest.iconData := by
  induction n generalizing toAdd stack dest with
  | zero => cases h
  | succ n ih =>
    cases stack with
    | nil =>
      unfold addGroups at h
      split at h
      · rw [← Loop.pure_ok.1 h]
      · exact ih h
    | cons id stack =>
      simp only [addGroups, Loop.bind_ok] at h
      obtain ⟨g, -, parent, -, _, -, h⟩ := h
      split at h
      · obtain ⟨u, hu, h⟩ := Loop.bind_ok.1 h
        exact (ih h).trans (addGroupWithId_iconData hu)
      · exact ih h

theorem queueDeletion_iconData {st st' : Database × List GroupId} (h : queueDeletion env source st id = .ok st') :
    st'.1.iconData = st.1.iconData := by
  obtain ⟨dest, toDelete⟩ := st
  simp only [queueDeletion, Loop.bind_ok] at h
  obtain ⟨g, -, h⟩ := h
  split at h
  · rw [← Loop.pure_ok.1 h]
  · obtain ⟨update, -, h⟩ := Loop.bind_ok.1 h
    split at h
    · rw [← Loop.pure_ok.1 h]
    · rw [← Loop.pure_ok.1 h]
      rfl

theorem addEntryFrom_iconData (h : addEntryFrom source dest id = .ok t) : t.iconData = dest.iconData := by
  simp only [addEntryFrom, Loop.bind_ok] at h
  obtain ⟨s, -, h⟩ := h
  have added : (expect (source.group s.parent) >>= fun _ =>
      if s.parent ∈ dest.groups then dest.addEntryWithId s.parent id s else pure dest) = .ok t →
      t.iconData = dest.iconData := fun h => by
    obtain ⟨g, -, h⟩ := Loop.bind_ok.1 h
    split at h
    · exact addEntryWithId_iconData h
    · rw [← Loop.pure_ok.1 h]
  split at h
  · split at h
    · rw [← Loop.pure_ok.1 h]
    · exact added h
  · exact added (by simpa using h)

theorem removeEntryFrom_iconData (h : removeEntryFrom env source dest id = .ok t) : t.iconData = dest.iconData := by
  simp only [removeEntryFrom, Loop.bind_ok] at h
  obtain ⟨d, -, h⟩ := h
  split at h
  · rw [← Loop.pure_ok.1 h]
  · split at h
    · rw [← Loop.pure_ok.1 h]
    · obtain ⟨u, hu, h⟩ := Loop.bind_ok.1 h
      rw [← Loop.pure_ok.1 h]
      exact (removeEntry_iconData hu :)

theorem followMove_iconData {d s : Entry} (h : followMove source dest d s id = .ok t) : t.iconData = dest.iconData := by
  simp only [followMove, Loop.bind_ok] at h
  obtain ⟨g, -, g', -, h⟩ := h
  split at h
  · split at h
    · split at h
      · obtain ⟨moved, hmoved, h⟩ := Loop.bind_ok.1 h
        cases moved with
        | none => rw [← Loop.pure_ok.1 h]
        | some u =>
          rw [← Loop.pure_ok.1 h]
          exact (moveEntryTo_iconData hmoved :)
      · rw [← Loop.pure_ok.1 h]
    · rw [← Loop.pure_ok.1 h]
  · rw [← Loop.pure_ok.1 h]

theorem mergeEntryInBoth_iconData (h : mergeEntryInBoth env source dest id = .ok t) : t.iconData = dest.iconData := by
  simp only [mergeEntryInBoth, Loop.bind_ok] at h
  obtain ⟨d, -, s, -, u, hu, d', -, h⟩ := h
  have hmoved := followMove_iconData hu
  split at h
  · split at h
    · cases h
    · rw [← Loop.pure_ok.1 h]
      exact hmoved
  · rw [← Loop.pure_ok.1 h]
    exact hmoved

theorem mergeEntries_iconData (h : mergeEntries env source dest = .ok t) : t.iconData = dest.iconData := by
  simp only [mergeEntries, Loop.bind_ok] at h
  obtain ⟨t₁, h₁, t₂, h₂, h₃⟩ := h
  have kept : ∀ {f : Database → Uuid → Except Fault Database}, (∀ {u u' : Database} {i}, f u i = .ok u' →
      u'.iconData = u.iconData) → ∀ (l : List Uuid) (u u' : Database), l.foldlM f u = .ok u' → u'.iconData = u.iconData :=
    fun step l u u' hloop => Loop.foldlM_inv (fun v : Database => v.iconData = u.iconData)
      (fun _ _ _ _ hv hstep => (step hstep).trans hv) hloop rfl
  exact (kept mergeEntryInBoth_iconData _ _ _ h₃).trans ((kept removeEntryFrom_iconData _ _ _ h₂).trans
    (kept addEntryFrom_iconData _ _ _ h₁))

theorem deleteGroups_iconData {toDelete : List GroupId} (h : deleteGroups env toDelete dest = .ok t) :
    t.iconData = dest.iconData := by
  refine Loop.foldlM_inv (fun u : Database => u.iconData = dest.iconData) (fun id _ u u' hu hstep => ?_) h rfl
  split at hstep
  · exact (removeGroup_iconData hstep).trans hu
  · rw [← Loop.pure_ok.1 hstep]
    exact hu

theorem orMergeError_ok {r : Except MoveGroupError Database} (h : orMergeError dest r = .ok t) : r = .ok t := by
  cases r with
  | ok u => exact congrArg Except.ok (Except.ok.inj h)
  | error e => cases h

theorem followGroupMove_iconData {d s : Group} {move : Option GroupId}
    (h : followGroupMove source dest d s id = .ok (some (t, move))) : t.iconData = dest.iconData := by
  simp only [followGroupMove, Loop.bind_ok] at h
  obtain ⟨destParent, -, sourceParent, -, h⟩ := h
  have stays : (pure (some (dest, none)) : Except Fault (Option (Database × Option GroupId))) = .ok (some (t, move)) →
      t.iconData = dest.iconData := fun h => by
    cases Loop.pure_ok.1 h
    rfl
  split at h
  · split at h
    · split at h
      · split at h
        · cases Loop.pure_ok.1 h
        · split at h
          · cases Loop.pure_ok.1 h
          · obtain ⟨r, hr, h⟩ := Loop.bind_ok.1 h
            obtain ⟨u, hu, h⟩ := Loop.bind_ok.1 h
            cases Loop.pure_ok.1 h
            rw [orMergeError_ok hu] at hr
            exact (moveGroupTo_iconData hr :)
      · exact stays h
    · exact stays h
  · exact stays h

theorem mergeGroupInBoth_iconData {st st' : Database × List (GroupId × GroupId)}
    (h : mergeGroupInBoth env source st id = .ok st') : st'.1.iconData = st.1.iconData := by
  obtain ⟨dest, moves⟩ := st
  simp only [mergeGroupInBoth, Loop.bind_ok] at h
  obtain ⟨d, -, s, -, followed, hfollowed, h⟩ := h
  cases followed with
  | none => rw [← Loop.pure_ok.1 h]
  | some followed =>
    obtain ⟨u, move⟩ := followed
    have hmoved := followGroupMove_iconData hfollowed
    obtain ⟨d', -, h⟩ := Loop.bind_ok.1 h
    split at h
    · split at h
      · cases h
      · rw [← Loop.pure_ok.1 h]
        exact hmoved
    · split at h
      · rw [← Loop.pure_ok.1 h]
        exact hmoved
      · rw [← Loop.pure_ok.1 h]
        exact hmoved

theorem runMove_iconData {move : GroupId × GroupId} (h : runMove dest move = .ok t) : t.iconData = dest.iconData := by
  obtain ⟨r, hr, h⟩ := Loop.bind_ok.1 h
  rw [orMergeError_ok h] at hr
  exact moveGroupTo_iconData hr

/-- The destination keeps its icons, and gets no others. -/
theorem merge_iconData (h : merge env dest source = .ok t) : t.iconData = dest.iconData := by
  simp only [merge, addMissingGroups, Loop.bind_ok] at h
  obtain ⟨t₁, ⟨wanted, -, h₁⟩, ⟨t₂, toDelete⟩, h₂, t₃, h₃, t₄, h₄, _, -, ⟨t₅, moves⟩, h₅, h₆⟩ := h
  have hqueued : t₂.iconData = t₁.iconData :=
    Loop.foldlM_inv (fun st : Database × List GroupId => st.1.iconData = t₁.iconData)
      (fun _ _ _ _ hst hstep => (queueDeletion_iconData hstep).trans hst) h₂ rfl
  have hgroups : t₅.iconData = t₄.iconData :=
    Loop.foldlM_inv (fun st : Database × List (GroupId × GroupId) => st.1.iconData = t₄.iconData)
      (fun _ _ _ _ hst hstep => (mergeGroupInBoth_iconData hstep).trans hst) h₅ rfl
  have hmoves : t.iconData = t₅.iconData :=
    Loop.foldlM_inv (fun u : Database => u.iconData = t₅.iconData)
      (fun _ _ _ _ hu hstep => (runMove_iconData hstep).trans hu) h₆ rfl
  rw [hmoves, hgroups, deleteGroups_iconData h₄, mergeEntries_iconData h₃, hqueued, addGroups_iconData h₁]

end Keepass

namespace Falach

open Keepass Database

variable {env : Env} {localDb remote merged db db' : Database} {delta : EntryDelta}

/-! ## The passes after it -/

theorem backfillLostVersions_iconData (pres : List Entry) : (backfillLostVersions db pres).iconData = db.iconData := by
  unfold backfillLostVersions
  induction pres generalizing db with
  | nil => rfl
  | cons pre pres ih =>
    refine ih.trans ?_
    unfold backfill
    split
    · rfl
    · split
      · rfl
      · rfl

theorem addAll_iconData {id : EntryId} {attachments : List (String × Value Bytes)} (h : addAll db id attachments = .ok db') :
    db'.iconData = db.iconData :=
  Loop.foldlM_inv (fun u : Database => u.iconData = db.iconData)
    (fun _ _ _ _ hu hstep => (addAttachment_iconData hstep).trans hu) h rfl

theorem repairAdded_iconData {localPre : List Entry} {pre : Entry} (h : repairAdded env remote localPre db pre = .ok db') :
    db'.iconData = db.iconData := by
  unfold repairAdded at h
  split at h
  · rw [← Loop.pure_ok.1 h]
  · split at h
    · rw [← Loop.pure_ok.1 h]
    · obtain ⟨attachments, -, h⟩ := Loop.bind_ok.1 h
      split at h
      · rw [← Loop.pure_ok.1 h]
      · split at h
        · rw [← Loop.pure_ok.1 h]
        · obtain ⟨t, ht, h⟩ := Loop.bind_ok.1 h
          rw [← Loop.pure_ok.1 h]
          exact (addAll_iconData ht :)

theorem propagate_iconData {localPre : List Entry} {pre : Entry} (h : propagate env remote localPre db pre = .ok db') :
    db'.iconData = db.iconData := by
  unfold propagate at h
  split at h
  · rw [← Loop.pure_ok.1 h]
  · split at h
    · rw [← Loop.pure_ok.1 h]
    · split at h
      · simp only [adoptAttachments, Loop.bind_ok] at h
        obtain ⟨wanted, -, held, -, h⟩ := h
        split at h
        · rw [← Loop.pure_ok.1 h]
        · obtain ⟨t, ht, h⟩ := Loop.bind_ok.1 h
          obtain ⟨u, hu, h⟩ := Loop.bind_ok.1 h
          rw [← Loop.pure_ok.1 h]
          have hremoved : t.iconData = db.iconData := Loop.foldlM_inv (fun v : Database => v.iconData = db.iconData)
            (fun _ _ _ _ hv hstep => (removeAttachmentByName_iconData hstep).trans hv) ht rfl
          exact ((addAll_iconData hu).trans hremoved :)
      · rw [← Loop.pure_ok.1 h]

theorem reconcile_iconData (h : reconcile env localDb remote = .ok (merged, delta)) :
    merged.iconData = localDb.iconData := by
  simp only [reconcile, Loop.bind_ok] at h
  obtain ⟨before, -, localPre, -, remotePre, -, t, ht, u, hu, v, hv, after, -, h⟩ := h
  cases Loop.pure_ok.1 h
  have hrepaired : u.iconData = t.iconData := by
    refine (Loop.foldlM_inv (fun w : Database => w.iconData = _)
      (fun _ _ _ _ hw hstep => (repairAdded_iconData hstep).trans hw) hu rfl).trans ?_
    rw [backfillLostVersions_iconData, backfillLostVersions_iconData]
  have hpropagated : merged.iconData = u.iconData := Loop.foldlM_inv (fun w : Database => w.iconData = u.iconData)
    (fun _ _ _ _ hw hstep => (propagate_iconData hstep).trans hw) hv rfl
  exact hpropagated.trans (hrepaired.trans (merge_iconData ht))

end Falach
