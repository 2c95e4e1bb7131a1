import Falach.Vault.TreeFormed
/-!
# The recycle bin

What deletions, moves and new groups make of the recycle bin. `delete_entry` asks first whether the bin is switched on.
`delete_group` does not ask: when there is no bin yet it makes one, and the bin is on from then on.
-/

namespace Falach

open Keepass Database

/-- A group up to its place in the tree. -/
def unplacedGroup (g : Group) : Group :=
  { g.bare with parent := none, times := { g.times with locationChanged := none } }

/-- The user has switched the bin off. -/
def BinOff (db : Database) : Prop := db.meta.recyclebinEnabled = some false

instance (db : Database) : Decidable (BinOff db) := inferInstanceAs (Decidable (_ = _))

/-- The group is the bin, or below it. -/
def InBin (db : Database) (group : GroupId) : Prop := ∃ bin, recycleBin db = some bin ∧ Below db.parentOf bin group

namespace VaultCall

/-- The calls that create, move and delete. -/
def Files : VaultCall → Prop
  | .addEntry .. | .createGroup .. | .moveEntry .. | .moveGroup .. | .deleteEntry .. | .deleteGroup .. => True
  | _ => False

/-- The UUID of the group that the call is asked for. -/
def creates : VaultCall → Option GroupId
  | .createGroup _ _ fresh _ => some fresh
  | _ => none

/-- The call deletes an entry or a group. -/
def Deletes : VaultCall → Prop
  | .deleteEntry .. | .deleteGroup .. => True
  | _ => False

/-- The deletion of a group that is past its checks, while the bin is off and there is none. -/
def MakesBin (db : Database) : VaultCall → Prop
  | .deleteGroup uuid behavior _ _ => BinOff db ∧ recycleBin db = none ∧ uuid ∈ db.groups ∧ uuid ≠ db.root ∧
      (behavior = .refuse → ∀ g, db.group uuid = some g → g.groups = ∅ ∧ g.entries = ∅)
  | _ => False

end VaultCall

/-- The entry is in the bin, with what it says and with its last version in its history. Nothing else has moved. -/
structure EntryBinned (db : Database) (id : EntryId) (db' : Database) : Prop where
  arrives : ∃ e e' bin, db.entry id = some e ∧ db'.entry id = some e' ∧ recycleBin db' = some bin ∧ e'.parent = bin ∧
    unplaced e'.toVersion = unplaced e.toVersion ∧ versions e' = e.toVersion :: versions e
  entries : ∀ i, i ≠ id → db'.entry i = db.entry i
  groups : ∀ i ∈ db.groups, db'.parentOf i = db.parentOf i ∧ (db'.group i).map Group.bare = (db.group i).map Group.bare

/-- The group is in the bin, over the groups and entries that it was over before. Nothing else has moved. -/
structure GroupBinned (db : Database) (id : GroupId) (db' : Database) : Prop where
  arrives : ∃ bin, recycleBin db' = some bin ∧ db'.parentOf id = some bin
  below : ∀ i, Below db'.parentOf id i ↔ Below db.parentOf id i
  groups : ∀ i ∈ db.groups, (i ≠ id → db'.parentOf i = db.parentOf i) ∧
    (db'.group i).map unplacedGroup = (db.group i).map unplacedGroup
  entries : db'.entries = db.entries

/-- The call keeps to the setting of the bin: one that is off stays off and is not made, what is deleted goes into one
that is on, and a refused deletion does nothing. -/
structure RespectsBin (c : Called) : Prop where
  off : BinOff c.before → c.after.meta = c.before.meta ∧
    ∀ i ∈ c.after.groups, i ∈ c.before.groups ∨ c.call.creates = some i
  entry : ¬ BinOff c.before → c.result = .ok () → ∀ env id fresh now, c.call = .deleteEntry env id fresh now →
    (∀ p, c.before.homeOf id = some p → ¬ InBin c.before p) → EntryBinned c.before id c.after
  group : ¬ BinOff c.before → c.result = .ok () → ∀ id behavior fresh now, c.call = .deleteGroup id behavior fresh now →
    ¬ InBin c.before id → GroupBinned c.before id c.after
  refused : c.call.Deletes → ∀ e, c.result = .error e → c.after = c.before

variable {env : Env} {db db' t : Database} {r : Except VaultError Unit} {id : Uuid} {fresh bin : GroupId}
  {now : Nat → NaiveDateTime}

/-! ## Making sure of a bin -/

theorem recycleBin_mem (h : recycleBin db = some bin) : bin ∈ db.groups := by
  obtain ⟨-, hb⟩ := Option.filter_eq_some_iff.1 h
  simpa using hb

theorem recycleBin_congr (hmeta : t.meta = db.meta) (hmem : ∀ i, i ∈ t.groups ↔ i ∈ db.groups) :
    recycleBin t = recycleBin db := by
  unfold recycleBin
  rw [hmeta]
  simp only [hmem]

/-- There is a bin now, and what was there before is where it was. -/
structure WithBin (db : Database) (t : Database) (bin : GroupId) : Prop where
  linked : Linked t
  found : recycleBin t = some bin
  entries : t.entries = db.entries
  bare : ∀ i ∈ db.groups, (t.group i).map Group.bare = (db.group i).map Group.bare
  was : (t = db ∧ recycleBin db = some bin) ∨ (recycleBin db = none ∧ bin ∉ db.groups ∧
    t.parentOf = Function.update db.parentOf bin (some db.root) ∧ t.meta.recyclebinEnabled = some true)

theorem withBin (hl : Linked db) (hfresh : fresh ∉ db.groups)
    (h : recycleBinGroupIdOrCreate db fresh now = (t, bin)) : WithBin db t bin := by
  have made := binned hl hfresh h
  rcases made.was with ⟨rfl, hbin⟩ | ⟨rfl, hnone, hparent⟩
  · exact ⟨hl, hbin, rfl, fun _ _ => rfl, .inl ⟨rfl, hbin⟩⟩
  · obtain ⟨-, -, -, hbare⟩ := newBin_linked now hl hnone hfresh
    rw [h] at hbare
    have hmeta : t.meta.recyclebinUuid = some bin ∧ t.meta.recyclebinEnabled = some true := by
      unfold recycleBinGroupIdOrCreate at h
      rw [hnone] at h
      obtain ⟨rfl, -⟩ := Prod.mk.inj h
      exact ⟨rfl, rfl⟩
    refine ⟨made.linked, ?_, made.entries, fun i hi => ?_, .inr ⟨hnone, hfresh, hparent, hmeta.2⟩⟩
    · rw [recycleBin, hmeta.1, Option.filter_some, if_pos (by simpa using made.mem)]
    · exact hbare i fun heq => hfresh (heq ▸ hi)

namespace WithBin

variable (made : WithBin db t bin)

include made in
theorem parent {i : GroupId} (hi : i ∈ db.groups) : t.parentOf i = db.parentOf i := by
  rcases made.was with ⟨rfl, -⟩ | ⟨-, hfresh, hparent, -⟩
  · rfl
  · have hne : i ≠ bin := by rintro rfl; exact hfresh hi
    rw [hparent, Function.update_of_ne hne]

include made in
/-- A bin that is made now is below the root only. -/
theorem below (hl : Linked db) (hid : id ∈ db.groups) (hroot : id ≠ db.root) (i : GroupId) :
    Below t.parentOf id i ↔ Below db.parentOf id i := by
  by_cases hi : i ∈ db.groups
  · exact (below_congr hl (fun j hj => (made.parent hj).symm) hi).symm
  have hne : i ≠ id := by rintro rfl; exact hi hid
  refine iff_of_false (fun hb => ?_) fun hb => ?_
  · obtain ⟨p, hp, hb⟩ := (Below.iff_parent.1 hb).resolve_left hne
    rcases made.was with ⟨rfl, -⟩ | ⟨-, -, hparent, -⟩
    · exact hi (mem_groups_of_parentOf hp)
    by_cases hbin : i = bin
    · rw [hparent, hbin, Function.update_self] at hp
      obtain rfl := Option.some.inj hp
      obtain ⟨q, hq, -⟩ := (Below.iff_parent.1 hb).resolve_left (Ne.symm hroot)
      rw [made.parent hl.root_mem, hl.root_parent] at hq
      cases hq
    · rw [hparent, Function.update_of_ne hbin] at hp
      exact hi (mem_groups_of_parentOf hp)
  · obtain ⟨p, hp, -⟩ := (Below.iff_parent.1 hb).resolve_left hne
    exact hi (mem_groups_of_parentOf hp)

end WithBin

/-! ## Deletions -/

theorem unplaced_modifyGroup {i p : GroupId} {f : Group → Group} (hf : ∀ g, unplacedGroup (f g) = unplacedGroup g) :
    ((db.modifyGroup p f).group i).map unplacedGroup = (db.group i).map unplacedGroup := by
  rw [group_modifyGroup]
  split
  · subst_vars
    rw [Option.map_map]
    exact Option.map_congr fun g _ => hf g
  · rfl

theorem unplaced_of_bare {i : GroupId} (h : (t.group i).map Group.bare = (db.group i).map Group.bare) :
    (t.group i).map unplacedGroup = (db.group i).map unplacedGroup := by
  have through : ∀ g : Group, unplacedGroup g = unplacedGroup g.bare := fun _ => rfl
  have all : ∀ o : Option Group, o.map unplacedGroup = (o.map Group.bare).map unplacedGroup := fun o => by
    rw [Option.map_map]
    exact Option.map_congr fun g _ => through g
  rw [all, h, ← all]

theorem trackedMoveGroupTo_ok {group newParent : GroupId} {time : NaiveDateTime} (hl : Linked t)
    (h : trackedMoveGroupTo t group newParent time = .ok (.ok (), db')) :
    db'.parentOf = Function.update t.parentOf group (some newParent) ∧ (∀ i, i ∈ db'.groups ↔ i ∈ t.groups) ∧
      db'.meta = t.meta ∧ db'.entries = t.entries ∧
      ∀ i, (db'.group i).map unplacedGroup = (t.group i).map unplacedGroup := by
  simp only [trackedMoveGroupTo, Loop.bind_ok] at h
  obtain ⟨o, ho, h⟩ := h
  cases o with
  | error e => cases h
  | ok u =>
    obtain ⟨-, rfl⟩ := Prod.mk.inj (Loop.pure_ok.1 h)
    obtain ⟨-, hmem, hparent⟩ := moveGroupTo_linked hl ho
    obtain ⟨p, -, -, -, rfl⟩ := moveGroupTo_ok ho
    refine ⟨?_, fun i => mem_modifyGroup.trans (hmem i), rfl, rfl, fun i => ?_⟩
    · rw [parentOf_modifyGroup, hparent]
      intro g; rfl
    · rw [unplaced_modifyGroup, unplaced_modifyGroup, unplaced_modifyGroup, unplaced_modifyGroup]
      all_goals intro g; rfl

/-- A group that is deleted is past its checks, and then goes into the bin. -/
theorem deleteGroup_ok {behavior : Vault.GroupDeleteBehavior}
    (h : Vault.deleteGroup db id behavior fresh now = .ok (.ok (), db')) :
    id ∈ db.groups ∧ id ≠ db.root ∧ (behavior = .refuse → ∀ g, db.group id = some g → g.groups = ∅ ∧ g.entries = ∅) ∧
      Vault.binGroup db id fresh now = .ok (.ok (), db') := by
  unfold Vault.deleteGroup at h
  split at h
  · cases h
  rename_i group hgroup
  obtain ⟨hmem, rfl⟩ := findGroupId_ok hgroup
  split at h
  · cases h
  rename_i hroot
  cases behavior with
  | refuse =>
    dsimp only at h
    split at h
    · cases h
    · rename_i g hg
      split at h
      · cases h
      · rename_i hempty
        push Not at hempty
        exact ⟨hmem, hroot, fun _ x hx => Option.some.inj (hg.symm.trans hx) ▸ hempty, h⟩
  | recurse =>
    refine ⟨hmem, hroot, ?_, h⟩
    intro hb
    cases hb

theorem binGroup_binned (hl : Linked db) (hfresh : fresh ∉ db.groups) (hid : id ∈ db.groups) (hroot : id ≠ db.root)
    (hin : ¬ InBin db id) (h : Vault.binGroup db id fresh now = .ok (.ok (), db')) : GroupBinned db id db' := by
  unfold Vault.binGroup at h
  cases hbin : recycleBinGroupIdOrCreate db fresh now with
  | mk t bin =>
    have made := withBin hl hfresh hbin
    simp only [hbin] at h
    split at h
    · -- the bin is in the bin
      rename_i heq
      exfalso
      rcases made.was with ⟨-, hsome⟩ | ⟨-, hnew, -⟩
      · exact hin ⟨bin, hsome, heq ▸ .self⟩
      · exact hnew (heq ▸ hid)
    · obtain ⟨hparent, hmem, hmeta, hentries, hgroup⟩ := trackedMoveGroupTo_ok made.linked h
      refine ⟨⟨bin, (recycleBin_congr hmeta hmem).trans made.found, ?_⟩, fun i => ?_, fun i hi => ⟨fun hne => ?_, ?_⟩,
        hentries.trans made.entries⟩
      · rw [hparent, Function.update_self]
      · rw [hparent, Below.update_self]
        exact made.below hl hid hroot i
      · rw [hparent, Function.update_of_ne hne]
        exact made.parent hi
      · exact (hgroup i).trans (unplaced_of_bare (made.bare i hi))

theorem deleteEntry_binned (hl : Linked db) (hfresh : fresh ∉ db.groups) (hon : ¬ BinOff db)
    (hin : ∀ p, db.homeOf id = some p → ¬ InBin db p)
    (h : Vault.deleteEntry env db id fresh now = .ok (.ok (), db')) : EntryBinned db id db' := by
  unfold Vault.deleteEntry at h
  split at h
  · rename_i hoff
    refine absurd ?_ hon
    cases hset : db.meta.recyclebinEnabled with
    | none => rw [hset] at hoff; cases hoff
    | some b =>
      rw [hset] at hoff
      exact hset.trans (congrArg some hoff)
  split at h
  · cases h
  rename_i uuid hid
  obtain ⟨-, rfl⟩ := findEntryId_ok hid
  cases hbin : recycleBinGroupIdOrCreate db fresh now with
  | mk t bin =>
    have made := withBin hl hfresh hbin
    have entry : ∀ i, t.entry i = db.entry i := fun i => by simp only [Database.entry, made.entries]
    simp only [hbin, Loop.bind_ok, expect_ok] at h
    obtain ⟨e, he, h⟩ := h
    have he := (entry uuid).symm.trans he
    split at h
    · -- it is in the bin, or the bin is as new as nothing is in it
      rename_i hparent
      exfalso
      rcases made.was with ⟨-, hsome⟩ | ⟨-, hnew, -⟩
      · exact hin e.parent (homeOf_of_entry he) ⟨bin, hsome, hparent ▸ .self⟩
      · exact hnew (hparent ▸ hl.home he)
    · obtain ⟨-, moved⟩ := trackedMove_ok (recycleBin_mem made.found) h
      obtain ⟨e', he', round, -, -, hbare, hnow⟩ := trackedMoveTo_ok made.linked moved
      obtain rfl := Option.some.inj (he.symm.trans ((entry uuid).symm.trans he'))
      refine ⟨⟨e, _, bin, he, hnow, ?_, rfl, rfl, rfl⟩, fun i hi => (round.others i hi).trans (entry i), fun i hi =>
        ⟨?_, ?_⟩⟩
      · exact (recycleBin_congr (trackedMoveTo_meta moved) round.mem).trans made.found
      · rw [round.parentOf]
        exact made.parent hi
      · exact (hbare i).trans (made.bare i hi)

/-! ## The setting -/

/-- The settings and the groups that there are, the same before and after. -/
structure SameGroups (db db' : Database) : Prop where
  «meta» : db'.meta = db.meta
  mem : ∀ i, i ∈ db'.groups ↔ i ∈ db.groups

theorem SameGroups.refl (db : Database) : SameGroups db db := ⟨rfl, fun _ => .rfl⟩

theorem trackedMoveGroupTo_sameGroups {group newParent : GroupId} {time : NaiveDateTime} (hl : Linked t)
    (h : trackedMoveGroupTo t group newParent time = .ok (r, db')) : SameGroups t db' := by
  cases r with
  | ok u =>
    obtain ⟨-, hmem, hmeta, -⟩ := trackedMoveGroupTo_ok hl h
    exact ⟨hmeta, hmem⟩
  | error e =>
    rcases trackedMoveGroupTo_cases hl h with ⟨rfl, -⟩ | ⟨hr, -⟩
    · exact .refl db'
    · cases hr

theorem trackedMove_sameGroups {group : GroupId} {time : NaiveDateTime} (hl : Linked t) (hg : group ∈ t.groups)
    (h : trackedMove t id group time = .ok (r, db')) : SameGroups t db' := by
  obtain ⟨-, moved⟩ := trackedMove_ok hg h
  obtain ⟨-, -, round, -⟩ := trackedMoveTo_ok hl moved
  exact ⟨trackedMoveTo_meta moved, round.mem⟩

theorem binGroup_sameGroups (hl : Linked db) (hfresh : fresh ∉ db.groups)
    (h : Vault.binGroup db id fresh now = .ok (r, db')) :
    SameGroups (recycleBinGroupIdOrCreate db fresh now).1 db' := by
  unfold Vault.binGroup at h
  cases hbin : recycleBinGroupIdOrCreate db fresh now with
  | mk t bin =>
    simp only [hbin] at h
    split at h
    · obtain ⟨-, rfl⟩ := Prod.mk.inj (Loop.pure_ok.1 h)
      exact .refl t
    · exact trackedMoveGroupTo_sameGroups (withBin hl hfresh hbin).linked h

theorem addEntry_sameGroups {group : Uuid} {draft : EntryDraft} {uuid : Uuid}
    (h : addEntry db group draft fresh now = .ok (db', uuid)) : SameGroups db db' := by
  simp only [addEntry, Loop.bind_ok] at h
  obtain ⟨g, -, h⟩ := h
  obtain ⟨rfl, -⟩ := Prod.mk.inj (Loop.pure_ok.1 h)
  exact ⟨rfl, fun i => mem_modifyGroup⟩

theorem purgeEntry_sameGroups {uuid : Uuid} {time : NaiveDateTime} (hl : Linked db)
    (h : purgeEntry env db uuid time = .ok (.ok db')) : SameGroups db db' := by
  unfold purgeEntry at h
  split at h
  · cases h
  rename_i id hid
  obtain ⟨t, ht, h⟩ := Loop.bind_ok.1 h
  obtain rfl := Except.ok.inj (Loop.pure_ok.1 h)
  have same : SameTree db { db with deletedObjects := db.deletedObjects.insert id (some time) } := .of_eq rfl rfl rfl
  obtain ⟨-, -, hmem, -⟩ := removeEntry_linked (same.linkedBut hl) ht
  exact ⟨(removeEntry_meta ht).trans rfl, hmem⟩

/-- The calls that neither make a group nor ask for a bin. -/
theorem sameGroups_of_run {call : VaultCall} (hl : Linked db) (hfiles : call.Files) (hnew : call.creates = none)
    (hdelete : ¬ call.Deletes) (h : call.run db = .ok (r, db')) : SameGroups db db' := by
  cases call with
  | addEntry group draft fresh now =>
    have h := Except.ok.inj h
    cases hadd : addEntry db group draft fresh now with
    | error e =>
      rw [hadd] at h
      obtain ⟨-, rfl⟩ := Prod.mk.inj h
      exact .refl db
    | ok x =>
      rw [hadd] at h
      obtain ⟨-, rfl⟩ := Prod.mk.inj h
      exact addEntry_sameGroups hadd
  | moveEntry uuid newGroup now =>
    change Vault.moveEntry db uuid newGroup now = _ at h
    unfold Vault.moveEntry at h
    split at h
    · obtain ⟨-, rfl⟩ := Prod.mk.inj (Loop.pure_ok.1 h)
      exact .refl db
    · obtain ⟨-, rfl⟩ := Prod.mk.inj (Loop.pure_ok.1 h)
      exact .refl db
    · rename_i hgroup
      obtain ⟨hmem, rfl⟩ := findGroupId_ok hgroup
      exact trackedMove_sameGroups hl hmem h
  | moveGroup uuid newParent now =>
    change Vault.moveGroup db uuid newParent now = _ at h
    unfold Vault.moveGroup at h
    split at h
    · obtain ⟨-, rfl⟩ := Prod.mk.inj (Loop.pure_ok.1 h)
      exact .refl db
    · obtain ⟨-, rfl⟩ := Prod.mk.inj (Loop.pure_ok.1 h)
      exact .refl db
    · split at h
      · obtain ⟨-, rfl⟩ := Prod.mk.inj (Loop.pure_ok.1 h)
        exact .refl db
      · split at h
        · obtain ⟨-, rfl⟩ := Prod.mk.inj (Loop.pure_ok.1 h)
          exact .refl db
        · exact trackedMoveGroupTo_sameGroups hl h
  | createGroup => cases hnew
  | deleteEntry => exact absurd trivial hdelete
  | deleteGroup => exact absurd trivial hdelete
  | _ => exact absurd hfiles id

/-- While the bin is off an entry is deleted for good. -/
theorem deleteEntry_off {uuid : Uuid} (hl : Linked db) (hoff : BinOff db)
    (h : Vault.deleteEntry env db uuid fresh now = .ok (r, db')) : SameGroups db db' := by
  unfold Vault.deleteEntry at h
  rw [if_pos (by rw [hoff]; rfl)] at h
  obtain ⟨x, hx, h⟩ := Loop.bind_ok.1 h
  have h := Loop.pure_ok.1 h
  cases x with
  | error e =>
    obtain ⟨-, rfl⟩ := Prod.mk.inj h
    exact .refl db
  | ok t =>
    obtain ⟨-, rfl⟩ := Prod.mk.inj h
    exact purgeEntry_sameGroups hl hx

/-- Where there is a bin, a group goes into it, and the setting is left alone. -/
theorem deleteGroup_sameGroups {behavior : Vault.GroupDeleteBehavior} (hl : Linked db) (hfresh : fresh ∉ db.groups)
    (hbin : recycleBin db = some bin) (h : Vault.deleteGroup db id behavior fresh now = .ok (r, db')) :
    SameGroups db db' := by
  cases r with
  | error e =>
    have run : (VaultCall.deleteGroup id behavior fresh now).run db = .ok (.error e, db') := h
    have hsound : (VaultCall.deleteGroup id behavior fresh now).Sound db := hfresh
    rw [(run_effect hl hsound run).2 e rfl]
    exact .refl db
  | ok u =>
    obtain ⟨-, -, -, h⟩ := deleteGroup_ok h
    have same := binGroup_sameGroups hl hfresh h
    unfold recycleBinGroupIdOrCreate at same
    rwa [hbin] at same

/-- A call that makes no bin leaves one alone that is off. -/
theorem off_kept {call : VaultCall} (hl : Linked db) (hsound : call.Sound db) (hfiles : call.Files) (hoff : BinOff db)
    (hbin : ¬ call.MakesBin db) (h : call.run db = .ok (r, db')) :
    db'.meta = db.meta ∧ ∀ i ∈ db'.groups, i ∈ db.groups ∨ call.creates = some i := by
  have same : SameGroups db db' → db'.meta = db.meta ∧ ∀ i ∈ db'.groups, i ∈ db.groups ∨ call.creates = some i :=
    fun h => ⟨h.meta, fun i hi => .inl ((h.mem i).1 hi)⟩
  cases call with
  | createGroup parent name fresh now =>
    have h := Except.ok.inj h
    unfold Vault.createGroup at h
    split at h
    · obtain ⟨-, rfl⟩ := Prod.mk.inj h
      exact same (.refl db)
    · obtain ⟨-, rfl⟩ := Prod.mk.inj h
      refine ⟨rfl, fun i hi => ?_⟩
      rcases Finmap.mem_insert.1 hi with rfl | hi
      · exact .inr rfl
      · exact .inl (mem_modifyGroup.1 hi)
  | deleteEntry env uuid fresh now => exact same (deleteEntry_off hl hoff h)
  | deleteGroup uuid behavior fresh now =>
    cases hsome : recycleBin db with
    | some bin => exact same (deleteGroup_sameGroups hl hsound hsome h)
    | none =>
      cases r with
      | error e =>
        obtain rfl := (run_effect hl hsound h).2 e rfl
        exact same (.refl db')
      | ok u =>
        obtain ⟨hmem, hroot, hempty, -⟩ := deleteGroup_ok h
        exact absurd ⟨hoff, hsome, hmem, hroot, hempty⟩ hbin
  | addEntry group draft fresh now => exact same (sameGroups_of_run hl hfiles rfl id h)
  | moveEntry uuid newGroup now => exact same (sameGroups_of_run hl hfiles rfl id h)
  | moveGroup uuid newParent now => exact same (sameGroups_of_run hl hfiles rfl id h)
  | _ => exact absurd hfiles id

/-- A group deletion that makes a bin switches it on. -/
theorem makesBin_switches {call : VaultCall} (hl : Linked db) (hsound : call.Sound db) (hbin : call.MakesBin db)
    (h : call.run db = .ok (r, db')) : db'.meta.recyclebinEnabled = some true := by
  cases call with
  | deleteGroup uuid behavior fresh now =>
    obtain ⟨-, hnone, hmem, hroot, hempty⟩ := hbin
    have binned : Vault.binGroup db uuid fresh now = .ok (r, db') := by
      change Vault.deleteGroup db uuid behavior fresh now = _ at h
      simp only [Vault.deleteGroup, findGroupId, if_pos hmem, if_neg hroot] at h
      cases behavior with
      | recurse => exact h
      | refuse =>
        obtain ⟨g, hg⟩ := (mem_groups db).1 hmem
        obtain ⟨hgroups, hentries⟩ := hempty rfl g hg
        simp only [hg, hgroups, hentries, ne_eq, not_true_eq_false, or_self, if_false] at h
        exact h
    rw [(binGroup_sameGroups hl hsound binned).meta]
    unfold recycleBinGroupIdOrCreate
    rw [hnone]
  | _ => exact absurd hbin id

/-! ## Sessions -/

/-- One call. -/
theorem respectsBin_iff_call {call : VaultCall} (hl : Linked db) (hsound : call.Sound db) (hfiles : call.Files)
    (h : call.run db = .ok (r, db')) : RespectsBin ⟨db, call, r, db'⟩ ↔ ¬ call.MakesBin db := by
  constructor
  · intro hrespects hbin
    have hoff : BinOff db := by
      cases call with
      | deleteGroup uuid behavior fresh now => exact hbin.1
      | _ => exact absurd hbin id
    have hon := makesBin_switches hl hsound hbin h
    rw [(hrespects.off hoff).1] at hon
    have := hoff.symm.trans hon
    simp at this
  · intro hbin
    refine ⟨fun hoff => off_kept hl hsound hfiles hoff hbin h, ?_, ?_, fun _ e he => ?_⟩
    · rintro hon hok env id fresh now rfl hin
      obtain rfl : r = .ok () := hok
      exact deleteEntry_binned hl hsound hon hin h
    · rintro hon hok id behavior fresh now rfl hin
      obtain rfl : r = .ok () := hok
      obtain ⟨hmem, hroot, -, h⟩ := deleteGroup_ok h
      exact binGroup_binned hl hsound hmem hroot hin h
    · exact (run_effect hl hsound h).2 e he

/-- In every session of deletions, moves and new groups and entries, a call keeps to the setting of the bin unless it
is a group deletion that makes a bin against the setting. Without one of these, a bin that is off is off in every
state. -/
theorem bin_respected_iff {calls : List Called} (hl : Linked db) (h : Session db calls db')
    (hfiles : ∀ c ∈ calls, c.call.Files) :
    (∀ c ∈ calls, RespectsBin c ↔ ¬ c.call.MakesBin c.before) ∧
      (BinOff db → (∀ c ∈ calls, ¬ c.call.MakesBin c.before) → db'.meta = db.meta ∧
        (∀ c ∈ calls, c.after.meta = db.meta) ∧
        ∀ i ∈ db'.groups, i ∈ db.groups ∨ ∃ c ∈ calls, c.call.creates = some i) := by
  induction h with
  | start =>
    refine ⟨?_, fun _ _ => ⟨rfl, ?_, fun i hi => .inl hi⟩⟩
    · intro c hc
      cases hc
    · intro c hc
      cases hc
  | @call calls t t' call r hs hsound hrun ih =>
    obtain ⟨hiff, hstays⟩ := ih fun c hc => hfiles c (List.mem_append_left _ hc)
    have hlast : ⟨t, call, r, t'⟩ ∈ calls ++ [⟨t, call, r, t'⟩] := List.mem_append_right _ (List.mem_singleton_self _)
    have last := respectsBin_iff_call (hs.linked hl) hsound (hfiles _ hlast) hrun
    refine ⟨fun c hc => ?_, fun hoff hnot => ?_⟩
    · rcases List.mem_append.1 hc with hc | hc
      · exact hiff c hc
      · obtain rfl := List.mem_singleton.1 hc
        exact last
    · obtain ⟨hmeta, hafter, hgroups⟩ := hstays hoff fun c hc => hnot c (List.mem_append_left _ hc)
      have hofft : BinOff t := by rw [BinOff, hmeta]; exact hoff
      obtain ⟨hmeta', hgroups'⟩ := (last.2 (hnot _ hlast)).off hofft
      refine ⟨hmeta'.trans hmeta, fun c hc => ?_, fun i hi => ?_⟩
      · rcases List.mem_append.1 hc with hc | hc
        · exact hafter c hc
        · obtain rfl := List.mem_singleton.1 hc
          exact hmeta'.trans hmeta
      · rcases hgroups' i hi with hi | hi
        · rcases hgroups i hi with hi | ⟨c, hc, hi⟩
          · exact .inl hi
          · exact .inr ⟨c, List.mem_append_left _ hc, hi⟩
        · exact .inr ⟨_, hlast, hi⟩

/-! A vault whose bin is off, and a group in it that is deleted. -/

def offVault : Database := { withGroup with «meta» := { withGroup.meta with recyclebinEnabled := some false } }

def groupDeletion : VaultCall := .deleteGroup 2 .recurse 9 fun _ => 30

def offDeletion : List Called := [] ++ [⟨offVault, groupDeletion, .ok (), afterCall offVault groupDeletion⟩]

theorem offVault_linked : Linked offVault := CheckedLinks.linked (by decide +kernel)

theorem offDeletion_session : Session offVault offDeletion (afterCall offVault groupDeletion) := by
  have deleted : groupDeletion.run offVault = .ok (.ok (), afterCall offVault groupDeletion) := by decide +kernel
  refine .call .start ?_ deleted
  change (9 : GroupId) ∉ offVault.groups
  decide +kernel

theorem offDeletion_files : ∀ c ∈ offDeletion, c.call.Files := by
  intro c hc
  obtain rfl := List.mem_singleton.1 hc
  exact trivial

theorem offDeletion_meta : BinOff offVault ∧ (afterCall offVault groupDeletion).meta ≠ offVault.meta := by
  constructor <;> decide +kernel

/-- The group goes into a bin that the user has switched off, which is made for it and is on from then on. -/
theorem group_deletion_makes_bin : ¬ ∀ db db' calls, Linked db → Session db calls db' → (∀ c ∈ calls, c.call.Files) →
    ∀ c ∈ calls, RespectsBin c := by
  intro hall
  have respects := hall _ _ _ offVault_linked offDeletion_session offDeletion_files _ (List.mem_singleton_self _)
  obtain ⟨off, switched⟩ := offDeletion_meta
  exact switched (respects.off off).1

theorem bin_respected_iff_offVault : groupDeletion.MakesBin offVault := by
  have iff := (bin_respected_iff offVault_linked offDeletion_session offDeletion_files).1 _ (List.mem_singleton_self _)
  obtain ⟨off, switched⟩ := offDeletion_meta
  by_contra hnot
  exact switched ((iff.2 hnot).off off).1

end Falach
