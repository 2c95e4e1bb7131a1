import Falach.Format.XmlRoundTrip
import Falach.Lib.Preorder
/-!
# Groups in the document

Reading a document plants a tree: at every moment the database is the part of the result on the groups and entries that
were read so far. The walk that writes the document visits every group and every entry of a linked database once.
-/

namespace Keepass

open Cipher Database

/-! ## Parts of a database -/

/-- A group with the children that are there. -/
def Group.cut (gs : Finset GroupId) (es : Finset EntryId) (g : Group) : Group :=
  { g with groups := g.groups ∩ gs, entries := g.entries ∩ es }

/-- `P` has the groups `gs` and the entries `es` of `T`, and everything above them. -/
structure PartOf (T P : Database) (gs : Finset GroupId) (es : Finset EntryId) : Prop where
  group : ∀ i, P.group i = if i ∈ gs then (T.group i).map (Group.cut gs es) else none
  entry : ∀ j, P.entry j = if j ∈ es then T.entry j else none
  groups_up : ∀ i ∈ gs, ∀ q, T.parentOf i = some q → q ∈ gs
  entries_up : ∀ j ∈ es, ∀ q, T.homeOf j = some q → q ∈ gs

namespace PartOf

variable {T P : Database} {gs : Finset GroupId} {es : Finset EntryId} {p : GroupId}

/-- A group is planted below its parent, before any of its children. -/
theorem addGroup (hl : Linked T) (h : PartOf T P gs es) {c : GroupId} {g : Group} (hg : T.group c = some g)
    (hgp : g.parent = some p) (hp : p ∈ gs) (hc : c ∉ gs) :
    ∃ P', P.addGroupWithId p c { g with groups := ∅, entries := ∅ } = .ok P' ∧ PartOf T P' (insert c gs) es ∧
      P' = { P with groups := P'.groups, entries := P'.entries } := by
  have hcp : T.parentOf c = some p := parentOf_eq_some.2 ⟨g, hg, hgp⟩
  have hpc : p ≠ c := fun heq => hc (heq ▸ hp)
  have hnew : c ∉ P.groups := by
    refine Finmap.notMem_iff_lookup.2 ?_
    exact (h.group c).trans (if_neg hc)
  obtain ⟨gp, hgp'⟩ := (mem_groups T).1 (hl.parent_mem hcp)
  have hchild : c ∈ gp.groups := (hl.child_groups hgp' c).2 ⟨hcp, Set.notMem_empty c⟩
  refine ⟨_, if_neg hnew, ⟨fun i => ?_, h.entry, ?_, ?_⟩, rfl⟩
  · change ((P.groups.modify p _).insert c _).lookup i = _
    rw [Finmap.lookup_insert_eq]
    by_cases hic : i = c
    · -- its own children are not there yet
      subst hic
      have hgroups : g.groups ∩ insert i gs = ∅ := by
        refine Finset.eq_empty_of_forall_notMem fun d hd => ?_
        obtain ⟨hd, hin⟩ := Finset.mem_inter.1 hd
        have hdi := ((hl.child_groups hg d).1 hd).1
        rcases Finset.mem_insert.1 hin with rfl | hin
        · exact hpc (Option.some.inj (hcp.symm.trans hdi))
        · exact hc (h.groups_up d hin i hdi)
      have hentries : g.entries ∩ es = ∅ := by
        refine Finset.eq_empty_of_forall_notMem fun j hj => ?_
        obtain ⟨hj, hin⟩ := Finset.mem_inter.1 hj
        exact hc (h.entries_up j hin i ((hl.child_entries hg j).1 hj))
      rw [if_pos rfl, if_pos (Finset.mem_insert_self i gs), hg, Option.map_some, Group.cut, hgroups, hentries]
    · rw [if_neg hic]
      refine (group_modifyGroup P p (fun g => { g with groups := insert c g.groups }) i).trans ?_
      by_cases hip : i = p
      · subst hip
        rw [if_pos rfl, h.group, if_pos hp, if_pos (Finset.mem_insert_of_mem hp), hgp']
        simp only [Option.map_some, Group.cut]
        rw [Finset.inter_insert_of_mem hchild]
      · rw [if_neg hip, h.group]
        by_cases hi : i ∈ gs
        · rw [if_pos hi, if_pos (Finset.mem_insert_of_mem hi)]
          cases hgi : T.group i with
          | none => rfl
          | some gi =>
            have hother : c ∉ gi.groups := fun hin =>
              hip (Option.some.inj (((hl.child_groups hgi c).1 hin).1.symm.trans hcp))
            simp only [Option.map_some, Group.cut]
            rw [Finset.inter_insert_of_notMem hother]
        · rw [if_neg hi, if_neg fun hin => (Finset.mem_insert.1 hin).elim hic hi]
  · intro i hi q hq
    rcases Finset.mem_insert.1 hi with rfl | hi
    · exact Finset.mem_insert_of_mem (Option.some.inj (hcp.symm.trans hq) ▸ hp)
    · exact Finset.mem_insert_of_mem (h.groups_up i hi q hq)
  · exact fun j hj q hq => Finset.mem_insert_of_mem (h.entries_up j hj q hq)

/-- An entry is planted in its group. -/
theorem addEntry (hl : Linked T) (h : PartOf T P gs es) {j : EntryId} {e : Entry} (fresh : Entry)
    (he : T.entry j = some e) (hep : e.parent = p) (hp : p ∈ gs) (hj : j ∉ es) :
    ∃ P', P.addEntryWithId p j fresh = .ok P' ∧ PartOf T (P'.modifyEntry j fun _ => e) gs (insert j es) ∧
      P'.modifyEntry j (fun _ => e) = { P with
        groups := (P'.modifyEntry j fun _ => e).groups, entries := (P'.modifyEntry j fun _ => e).entries } := by
  have hjp : T.homeOf j = some p := homeOf_eq_some.2 ⟨e, he, hep⟩
  have hnew : j ∉ P.entries := Finmap.notMem_iff_lookup.2 ((h.entry j).trans (if_neg hj))
  obtain ⟨gp, hgp⟩ := (mem_groups T).1 (hep ▸ hl.home he)
  have hchild : j ∈ gp.entries := (hl.child_entries hgp j).2 hjp
  refine ⟨_, if_neg hnew, ⟨fun i => ?_, fun k => ?_, h.groups_up, fun k hk q hq => ?_⟩, rfl⟩
  · change (P.groups.modify p fun g => { g with entries := insert j g.entries }).lookup i = _
    refine (group_modifyGroup P p (fun g => { g with entries := insert j g.entries }) i).trans ?_
    by_cases hip : i = p
    · subst hip
      rw [if_pos rfl, h.group, if_pos hp, if_pos hp, hgp]
      simp only [Option.map_some, Group.cut]
      rw [Finset.inter_insert_of_mem hchild]
    · rw [if_neg hip, h.group]
      by_cases hi : i ∈ gs
      · rw [if_pos hi, if_pos hi]
        cases hgi : T.group i with
        | none => rfl
        | some gi =>
          have hother : j ∉ gi.entries := fun hin =>
            hip (Option.some.inj (((hl.child_entries hgi j).1 hin).symm.trans hjp))
          simp only [Option.map_some, Group.cut]
          rw [Finset.inter_insert_of_notMem hother]
      · rw [if_neg hi, if_neg hi]
  · change ((P.entries.insert j fresh).modify j fun _ => e).lookup k = _
    rw [Finmap.lookup_modify, Finmap.lookup_insert_eq, Finmap.lookup_insert_eq, if_pos rfl]
    by_cases hkj : k = j
    · rw [if_pos hkj, if_pos (hkj ▸ Finset.mem_insert_self j es), hkj, he]
      rfl
    · rw [if_neg hkj, if_neg hkj]
      refine (h.entry k).trans (if_congr ?_ rfl rfl)
      rw [Finset.mem_insert, or_iff_right hkj]
  · rcases Finset.mem_insert.1 hk with rfl | hk
    · exact Option.some.inj (hjp.symm.trans hq) ▸ hp
    · exact h.entries_up k hk q hq

end PartOf

/-! ## Reading children -/

/-- The groups among the children and below them, in the order of the document. -/
def XmlChildren.groupIds : XmlChildren → List GroupId
  | .nil => []
  | .group g children rest => g.uuid :: (children.groupIds ++ rest.groupIds)
  | .entry _ rest => rest.groupIds

/-- The entries among the children and below them, in the order of the document. -/
def XmlChildren.entryIds : XmlChildren → List EntryId
  | .nil => []
  | .group _ children rest => children.entryIds ++ rest.entryIds
  | .entry e rest => e.uuid :: rest.entryIds

variable {T : Database} {pool : HashMap AttachmentId Attachment} {icons : HashMap CustomIconId CustomIcon}

/-- The children say what is below the group `p` of `T`, when the key stream goes from one place to another. -/
inductive Agrees (T : Database) (pool : HashMap AttachmentId Attachment) (icons : HashMap CustomIconId CustomIcon) :
    GroupId → KeyStream → XmlChildren → KeyStream → Prop
  | nil {p s} : Agrees T pool icons p s .nil s
  | group {p s t u x g children rest} : T.group x.uuid = some g → g.parent = some p →
      x.toDb icons (some p) = { g with groups := ∅, entries := ∅ } → Agrees T pool icons x.uuid s children t →
      Agrees T pool icons p t rest u → Agrees T pool icons p s (.group x children rest) u
  | entry {p s t u x e rest} : T.entry x.uuid = some e → e.parent = p → x.toDb pool icons p s = .ok (e, t) →
      Agrees T pool icons p t rest u → Agrees T pool icons p s (.entry x rest) u

/-- Children that say what is below a group add it to the part that is there. -/
theorem Agrees.read {p : GroupId} {s t : KeyStream} {x : XmlChildren} (h : Agrees T pool icons p s x t) (hl : Linked T)
    {P : Database} {gs : Finset GroupId} {es : Finset EntryId} (hpart : PartOf T P gs es) (hp : p ∈ gs)
    (hgroups : (x.groupIds).Nodup) (hentries : (x.entryIds).Nodup) (hgs : ∀ i ∈ x.groupIds, i ∉ gs)
    (hes : ∀ j ∈ x.entryIds, j ∉ es) : ∃ P', x.toDb pool icons p (P, s) = .ok (P', t) ∧
      PartOf T P' (gs ∪ x.groupIds.toFinset) (es ∪ x.entryIds.toFinset) ∧
      P' = { P with groups := P'.groups, entries := P'.entries } := by
  induction h generalizing P gs es with
  | nil =>
    refine ⟨P, rfl, ?_, rfl⟩
    rw [XmlChildren.groupIds, XmlChildren.entryIds, List.toFinset_nil, Finset.union_empty, Finset.union_empty]
    exact hpart
  | @group p s t u x g children rest hg hgp hx _ _ ihc ihr =>
    rw [XmlChildren.groupIds, List.nodup_cons, List.nodup_append'] at hgroups
    rw [XmlChildren.entryIds, List.nodup_append'] at hentries
    obtain ⟨hxn, hcn, hrn, hdisj⟩ := hgroups
    obtain ⟨hcen, hren, hedisj⟩ := hentries
    rw [List.mem_append, not_or] at hxn
    obtain ⟨P₁, hadd, hpart₁, hrest₁⟩ := hpart.addGroup hl hg hgp hp (hgs x.uuid List.mem_cons_self)
    obtain ⟨P₂, hc, hpart₂, hrest₂⟩ := ihc hpart₁ (Finset.mem_insert_self x.uuid gs) hcn hcen
      (fun i hi hin => (Finset.mem_insert.1 hin).elim (fun heq => hxn.1 (heq ▸ hi))
        (hgs i (List.mem_cons_of_mem x.uuid (List.mem_append_left _ hi))))
      fun j hj => hes j (List.mem_append_left _ hj)
    obtain ⟨P₃, hr, hpart₃, hrest₃⟩ := ihr hpart₂ (Finset.mem_union_left _ (Finset.mem_insert_of_mem hp)) hrn hren
      (fun i hi hin => (Finset.mem_union.1 hin).elim
        (fun hin => (Finset.mem_insert.1 hin).elim (fun heq => hxn.2 (heq ▸ hi))
          (hgs i (List.mem_cons_of_mem x.uuid (List.mem_append_right _ hi))))
        fun hin => hdisj (List.mem_toFinset.1 hin) hi)
      fun j hj hin => (Finset.mem_union.1 hin).elim (hes j (List.mem_append_right _ hj))
        fun hin => hedisj (List.mem_toFinset.1 hin) hj
    refine ⟨P₃, ?_, ?_, ?_⟩
    · rw [XmlChildren.toDb, hx, hadd]
      change (children.toDb pool icons x.uuid (P₁, s)).bind _ = _
      rw [hc]
      exact hr
    · rw [XmlChildren.groupIds, XmlChildren.entryIds, List.toFinset_cons, List.toFinset_append, List.toFinset_append,
        Finset.union_insert, ← Finset.union_assoc, ← Finset.union_assoc, ← Finset.insert_union, ← Finset.insert_union]
      exact hpart₃
    · rw [hrest₃, hrest₂, hrest₁]
  | @entry p s t u x e rest he hep hx _ ih =>
    rw [XmlChildren.entryIds, List.nodup_cons] at hentries
    obtain ⟨P₁, hadd, hpart₁, hrest₁⟩ :=
      hpart.addEntry hl { id := x.uuid, parent := p } he hep hp (hes x.uuid List.mem_cons_self)
    obtain ⟨P₂, hr, hpart₂, hrest₂⟩ := ih hpart₁ hp hgroups hentries.2 hgs
      fun j hj hin => (Finset.mem_insert.1 hin).elim (fun heq => hentries.1 (heq ▸ hj))
        (hes j (List.mem_cons_of_mem x.uuid hj))
    refine ⟨P₂, ?_, ?_, ?_⟩
    · rw [XmlChildren.toDb, hadd]
      change (x.toDb pool icons p s).bind _ = _
      rw [hx]
      exact hr
    · rw [XmlChildren.groupIds, XmlChildren.entryIds, List.toFinset_cons, Finset.union_insert, ← Finset.insert_union]
      exact hpart₂
    · rw [hrest₂, hrest₁]

/-! ## Writing children -/

@[simp] theorem XmlChildren.groupIds_reread (x : XmlChildren) : x.reread.groupIds = x.groupIds := by
  induction x with
  | nil => rfl
  | group g children rest ihc ihr =>
    simp only [XmlChildren.reread, XmlChildren.groupIds, ihc, ihr]
    rfl
  | entry e rest ih => simp only [XmlChildren.reread, XmlChildren.groupIds, ih]

@[simp] theorem XmlChildren.entryIds_reread (x : XmlChildren) : x.reread.entryIds = x.entryIds := by
  induction x with
  | nil => rfl
  | group g children rest ihc ihr => simp only [XmlChildren.reread, XmlChildren.entryIds, ihc, ihr]
  | entry e rest ih =>
    simp only [XmlChildren.reread, XmlChildren.entryIds, ih]
    rfl

/-- The groups in a group, in the order they are written in. -/
def subgroups (orders : Orders) (db : Database) (i : GroupId) : List GroupId :=
  (db.group i).elim [] fun g => (orders.groups i).list g.groups

/-- The entries in a group, in the order they are written in. -/
def entriesIn (orders : Orders) (db : Database) (i : GroupId) : List EntryId :=
  (db.group i).elim [] fun g => (orders.entries i).list g.entries

variable {orders : Orders} {db : Database}

theorem mem_subgroups (hl : Linked db) (i j : GroupId) : j ∈ subgroups orders db i ↔ db.parentOf j = some i := by
  unfold subgroups
  cases hg : db.group i with
  | none =>
    refine iff_of_false List.not_mem_nil fun hp => ?_
    obtain ⟨g, hg'⟩ := (mem_groups db).1 (hl.parent_mem hp)
    exact Option.some_ne_none g (hg'.symm.trans hg)
  | some g =>
    rw [Option.elim_some, Enumeration.mem_list, hl.child_groups hg, and_iff_left (Set.notMem_empty j)]

theorem mem_entriesIn (hl : Linked db) (i : GroupId) (j : EntryId) :
    j ∈ entriesIn orders db i ↔ db.homeOf j = some i := by
  unfold entriesIn
  cases hg : db.group i with
  | none =>
    refine iff_of_false List.not_mem_nil fun hp => ?_
    obtain ⟨e, he, rfl⟩ := homeOf_eq_some.1 hp
    obtain ⟨g, hg'⟩ := (mem_groups db).1 (hl.home he)
    exact Option.some_ne_none g (hg'.symm.trans hg)
  | some g => rw [Option.elim_some, Enumeration.mem_list, hl.child_entries hg]

theorem nodup_subgroups (i : GroupId) : (subgroups orders db i).Nodup := by
  unfold subgroups
  cases db.group i with
  | none => exact List.nodup_nil
  | some g => exact (orders.groups i).nodup_list g.groups

theorem nodup_entriesIn (i : GroupId) : (entriesIn orders db i).Nodup := by
  unfold entriesIn
  cases db.group i with
  | none => exact List.nodup_nil
  | some g => exact (orders.entries i).nodup_list g.entries

/-- The element of a group is read as the group without its children. -/
theorem readGroup (hicons : ∀ cid, cid ∈ icons ↔ cid ∈ db.customIcons) (g : Group) :
    g.toXml.reread.toDb icons g.parent = { (g.read db.customIcons).settle with groups := ∅, entries := ∅ } := by
  unfold XmlGroup.toDb
  dsimp only [Group.toXml, XmlGroup.reread]
  rw [readCustomData, readIconIds_iconIds, readIcon_congr hicons]
  rfl

/-- The element of a group with its children, written by the walk with `n` rounds. -/
structure Written (orders : Orders) (db : Database) (icons : HashMap CustomIconId CustomIcon) (n : Nat) (x : GroupId)
    (s : KeyStream) (g : Group) (children : XmlChildren) (t : KeyStream) : Prop where
  group : db.group x = some g
  eq : groupToXml orders db n x s = .ok ((g.toXml, children), t)
  agrees : Agrees db.kept (filePool (toXml db)) icons x s children.reread t
  groupIds : x :: children.groupIds = preorder (subgroups orders db) n x
  entryIds : children.entryIds.Perm ((preorder (subgroups orders db) n x).flatMap (entriesIn orders db))

/-- The entries of a group are written after its groups. -/
theorem writeEntries (hl : Linked db) (hicons : ∀ cid, cid ∈ icons ↔ cid ∈ db.customIcons) {x : GroupId}
    {l : List EntryId} (hall : ∀ j ∈ l, db.homeOf j = some x) (s : KeyStream) :
    ∃ entries t, Loop.mapThrough (entryToXml orders db) l s = .ok (entries, t) ∧
      Agrees db.kept (filePool (toXml db)) icons x s (XmlChildren.ofLists [] entries).reread t ∧
      (XmlChildren.ofLists [] entries).groupIds = [] ∧ (XmlChildren.ofLists [] entries).entryIds = l := by
  induction l generalizing s with
  | nil => exact ⟨[], s, rfl, .nil, rfl, rfl⟩
  | cons j l ih =>
    obtain ⟨e, he, hex⟩ := homeOf_eq_some.1 (hall j List.mem_cons_self)
    obtain ⟨y, t, hwrite, hid, hread⟩ := readEntry (filePool (toXml db)) icons orders he s
    obtain ⟨entries, u, hwrites, hagrees, hgroups, hentries⟩ := ih (fun k hk => hall k (List.mem_cons_of_mem j hk)) t
    have hy : y.uuid = j := hid.trans (hl.entry_id he)
    refine ⟨y :: entries, u, Loop.mapThrough_cons hwrite hwrites, ?_, ?_, ?_⟩
    · refine .entry (t := t) (e := (e.write.read (filePool (toXml db)) icons).settle) ?_ hex (hex ▸ hread) hagrees
      change db.kept.entry y.uuid = _
      rw [hy, db.entry_kept, he, Option.map_some, Entry.read_congr hicons]
    · exact hgroups
    · exact congrArg₂ List.cons hy hentries

/-- The groups in a group are written one after the other. -/
theorem writeGroups {n : Nat} {x : GroupId} (hicons : ∀ cid, cid ∈ icons ↔ cid ∈ db.customIcons) {l : List GroupId}
    (hall : ∀ c ∈ l, db.parentOf c = some x ∧ ∀ s, ∃ g children t, Written orders db icons n c s g children t)
    (hl : Linked db) (s : KeyStream) :
    ∃ groups t, Loop.mapThrough (groupToXml orders db n) l s = .ok (groups, t) ∧ ∀ entries,
      (∀ u, Agrees db.kept (filePool (toXml db)) icons x t (XmlChildren.ofLists [] entries).reread u →
        Agrees db.kept (filePool (toXml db)) icons x s (XmlChildren.ofLists groups entries).reread u) ∧
      (XmlChildren.ofLists groups entries).groupIds =
        l.flatMap (preorder (subgroups orders db) n) ++ (XmlChildren.ofLists [] entries).groupIds ∧
      (XmlChildren.ofLists groups entries).entryIds.Perm
        ((l.flatMap (preorder (subgroups orders db) n)).flatMap (entriesIn orders db) ++
          (XmlChildren.ofLists [] entries).entryIds) := by
  induction l generalizing s with
  | nil => exact ⟨[], s, rfl, fun entries => ⟨fun u h => h, rfl, .refl _⟩⟩
  | cons c l ih =>
    obtain ⟨hc, hwrite⟩ := hall c List.mem_cons_self
    obtain ⟨g, children, t, hw⟩ := hwrite s
    obtain ⟨groups, u, hwrites, hrest⟩ := ih (fun k hk => hall k (List.mem_cons_of_mem c hk)) t
    have hgc : g.id = c := hl.group_id hw.group
    refine ⟨(g.toXml, children) :: groups, u, Loop.mapThrough_cons hw.eq hwrites, fun entries => ?_⟩
    obtain ⟨hagrees, hgroups, hentries⟩ := hrest entries
    have hgp : g.parent = some x := (parentOf_of_group hw.group).symm.trans hc
    refine ⟨fun v hv => .group (t := t) (g := (g.read db.customIcons).settle) ?_ hgp ?_ ?_ (hagrees v hv), ?_, ?_⟩
    · change db.kept.group g.id = _
      rw [hgc, db.group_kept, hw.group, Option.map_some]
    · rw [← hgp]
      exact readGroup hicons g
    · change Agrees _ _ _ g.id _ _ _
      rw [hgc]
      exact hw.agrees
    · rw [List.flatMap_cons, List.append_assoc, ← hgroups, ← hw.groupIds]
      exact congrArg (· :: (children.groupIds ++ (XmlChildren.ofLists groups entries).groupIds)) hgc
    · rw [List.flatMap_cons, List.flatMap_append, List.append_assoc]
      exact hw.entryIds.append hentries

/-- The walk from a group writes it with everything below it, if it has more rounds than there are levels. -/
theorem written (hl : Linked db) (hicons : ∀ cid, cid ∈ icons ↔ cid ∈ db.customIcons) {n : Nat} {x : GroupId}
    (hx : x ∈ db.groups) (hdepth : ∀ d y, Depth db.parentOf x d y → d < n) (s : KeyStream) :
    ∃ g children t, Written orders db icons n x s g children t := by
  induction n generalizing x s with
  | zero => exact absurd (hdepth 0 x .root) (Nat.not_lt_zero 0)
  | succ n ih =>
    obtain ⟨g, hg⟩ := (mem_groups db).1 hx
    have hsub : subgroups orders db x = (orders.groups x).list g.groups := by rw [subgroups, hg, Option.elim_some]
    have hin : entriesIn orders db x = (orders.entries x).list g.entries := by rw [entriesIn, hg, Option.elim_some]
    obtain ⟨groups, t, hgroups, hrest⟩ := writeGroups (n := n) (x := x) (l := subgroups orders db x) hicons
      (fun c hc => ⟨(mem_subgroups hl x c).1 hc, fun s => ih
        (mem_groups_of_parentOf ((mem_subgroups hl x c).1 hc))
        (fun d y hd => Nat.lt_of_succ_lt_succ (hdepth (d + 1) y (hd.under ((mem_subgroups hl x c).1 hc)))) s⟩) hl s
    obtain ⟨entries, u, hentries, hagrees, hnone, hids⟩ := writeEntries hl hicons
      (fun j hj => (mem_entriesIn hl x j).1 hj) t
    obtain ⟨hall, hgids, heids⟩ := hrest entries
    rw [hsub] at hgroups
    rw [hin] at hentries
    refine ⟨g, .ofLists groups entries, u, hg, ?_, hall u hagrees, ?_, ?_⟩
    · rw [groupToXml, hg]
      change (Loop.mapThrough (groupToXml orders db n) ((orders.groups x).list g.groups) s).bind _ = _
      rw [hgroups]
      change (Loop.mapThrough (entryToXml orders db) ((orders.entries x).list g.entries) t).bind _ = _
      rw [hentries]
      rfl
    · rw [hgids, hnone, List.append_nil, preorder]
    · rw [preorder, List.flatMap_cons]
      rw [hids] at heids
      exact heids.trans List.perm_append_comm

end Keepass
