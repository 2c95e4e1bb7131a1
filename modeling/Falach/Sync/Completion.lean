import Falach.Keepass.MergeDecisions
import Falach.Sync.Attached
/-!
# Which reconciles return

After the merge only an empty slot can stop a `reconcile`. If no pass comes across one, it returns exactly if the
merge does.
-/

namespace Falach

open Keepass Database

variable {env : Env} {db localDb remote u u' v : Database} {id x y : EntryId} {d e m s : Entry} {c : AttachmentId}

/-! ## Conditions on the two databases -/

/-- The entry is on both sides, stays, and is strictly newer in `remote`. -/
structure Overtaken (env : Env) (localDb remote : Database) (x : EntryId) (d s : Entry) : Prop where
  stays : EntryStays env localDb remote x
  here : localDb.entry x = some d
  there : remote.entry x = some s
  newer : timeLe s.times.lastModification d.times.lastModification = false

/-- No pass comes across an empty slot. -/
structure Stocked (env : Env) (localDb remote : Database) : Prop where
  removable : Removable env localDb remote
  added : ∀ x s c, localDb.entry x = none → remote.entry x = some s → s.Uses c → c ∈ remote.attachments
  arriving : ∀ x d s c, Overtaken env localDb remote x d s → s.Uses c → c ∈ remote.attachments
  leaving : ∀ x d s c, Overtaken env localDb remote x d s → d.Uses c →
    ∃ data, Guarded (fun y c => y ≠ x ∧ LetsGo env localDb remote y c) localDb.attachments c data

/-! ## The steps of the passes -/

theorem attachmentsNamed_total (env : Env) (site : Site) (h : ∀ c, e.Uses c → c ∈ db.attachments) :
    ∃ named, attachmentsNamed env site db e = .ok named := by
  refine Loop.mapM_total fun name hname => ?_
  obtain ⟨c, hc⟩ := Finmap.mem_keys_iff_lookup.1 (((env.names site e.id).mem_list _).1 hname)
  obtain ⟨a, ha⟩ := Finmap.mem_iff.1 (h c ⟨name, hc⟩)
  refine ⟨(name, a.data), ?_⟩
  simp only [Loop.bind_ok, expect_ok]
  exact ⟨c, hc, a, ha, rfl⟩

theorem addAttachment_total (name : String) (data : Value Bytes) (he : u.entry id = some e) :
    ∃ u', u.addAttachment id name data = .ok u' := by
  have stored : ∀ pool, ({ u with attachments := pool } : Database).entry id = some e := fun _ => he
  simp only [addAttachment, stored, expect, Loop.bind_ok, Except.ok.injEq, exists_eq_left']
  cases e.attachments.lookup name with
  | none => exact ⟨_, rfl⟩
  | some old => exact ⟨_, rfl⟩

theorem addAll_total (attachments : List (String × Value Bytes)) (he : u.entry id = some e) :
    ∃ u', addAll u id attachments = .ok u' := by
  obtain ⟨u', hu', -⟩ := Loop.foldlM_total (f := fun db (w : String × Value Bytes) => addAttachment db id w.1 w.2)
    (l := attachments) (fun u => ∃ e, u.entry id = some e) (fun w _ u hu => by
      obtain ⟨e, he⟩ := hu
      obtain ⟨u', hu'⟩ := addAttachment_total w.1 w.2 he
      obtain ⟨_, _, -, he', -⟩ := addAttachment_ok hu'
      exact ⟨u', hu', _, he'⟩) ⟨e, he⟩
  exact ⟨u', hu'⟩

theorem removeAttachmentByName_total (name : String) (he : u.entry id = some e) :
    ∃ u', u.removeAttachmentByName id name = .ok u' := by
  simp only [removeAttachmentByName, he, expect, Loop.bind_ok, Except.ok.injEq, exists_eq_left']
  cases e.attachments.lookup name with
  | none => exact ⟨_, rfl⟩
  | some old => exact ⟨_, rfl⟩

theorem removeAll_total (names : List String) (he : u.entry id = some e) :
    ∃ u', names.foldlM (fun db name => removeAttachmentByName db id name) u = Except.ok u' := by
  obtain ⟨u', hu', -⟩ := Loop.foldlM_total (f := fun db name => removeAttachmentByName db id name)
    (l := names) (fun u => ∃ e, u.entry id = some e) (fun name _ u hu => by
      obtain ⟨e, he⟩ := hu
      obtain ⟨u', hu'⟩ := removeAttachmentByName_total name he
      obtain ⟨_, _, -, he', -⟩ := removeAttachmentByName_ok hu'
      exact ⟨u', hu', _, he'⟩) ⟨e, he⟩
  exact ⟨u', hu'⟩

/-- A round of the first pass stops only at a slot that `remote` does not have. -/
theorem repairAdded_total (env : Env) (u : Database) {localPre : List Entry} (hs : remote.entry s.id = some s)
    (h : s.id ∉ localPre.map (·.id) → ∀ c, s.Uses c → c ∈ remote.attachments) :
    ∃ u', repairAdded env remote localPre u s = .ok u' := by
  unfold repairAdded
  by_cases hlocal : s.id ∈ localPre.map (·.id)
  · exact ⟨u, by rw [if_pos hlocal]; rfl⟩
  rw [if_neg hlocal, hs]
  obtain ⟨named, hnamed⟩ := attachmentsNamed_total env .repairAdded (h hlocal)
  simp only [hnamed, Loop.bind_ok, Except.ok.injEq, exists_eq_left']
  by_cases hempty : named = []
  · exact ⟨u, by rw [if_pos hempty]; rfl⟩
  rw [if_neg hempty]
  by_cases hthere : s.id ∈ u.entries
  · obtain ⟨e, he⟩ := (mem_entries u).1 hthere
    obtain ⟨u₁, hu₁⟩ := addAll_total named he
    exact ⟨_, by rw [if_neg (not_not.2 hthere)]; exact Loop.bind_ok.2 ⟨u₁, hu₁, rfl⟩⟩
  · exact ⟨u, by rw [if_pos hthere]; rfl⟩

/-- A round of the second pass stops only at an empty slot of one of the two versions. -/
theorem adoptAttachments_total (env : Env) (hm : u.entry id = some m) (hwanted : ∀ c, s.Uses c → c ∈ remote.attachments)
    (hheld : ∀ c, m.Uses c → c ∈ u.attachments) : ∃ u', adoptAttachments env remote s m u id = .ok u' := by
  obtain ⟨wanted, hwanted⟩ := attachmentsNamed_total env .propagateBothSides hwanted
  obtain ⟨held, hheld⟩ := attachmentsNamed_total env .propagateBothSides hheld
  simp only [adoptAttachments, hwanted, hheld, Loop.bind_ok, Except.ok.injEq, exists_eq_left']
  by_cases hsame : bytesByName wanted = bytesByName held
  · exact ⟨u, by rw [if_pos hsame]; rfl⟩
  rw [if_neg hsame]
  obtain ⟨u₁, hu₁⟩ := removeAll_total
    ((Enumeration.sorted.list (bytesByName held).keys).filter fun name => name ∉ bytesByName wanted) hm
  obtain ⟨⟨_, he₁, -⟩, -⟩ := removeAll_ok hm hu₁
  obtain ⟨u₂, hu₂⟩ := addAll_total wanted he₁
  exact ⟨_, Loop.bind_ok.2 ⟨u₁, hu₁, Loop.bind_ok.2 ⟨u₂, hu₂, rfl⟩⟩⟩

/-! ## What is left for the second pass -/

/-- Entry `y` has the attachments of `d`, in slots that hold what they held. -/
def Holds (env : Env) (localDb remote u : Database) (y : EntryId) (d : Entry) : Prop :=
  ∃ e, u.entry y = some e ∧ e.attachments = d.attachments ∧ ∀ c, d.Uses c → ∃ a, localDb.attachments.lookup c = some a ∧
    Guarded (fun x c => x ≠ y ∧ LetsGo env localDb remote x c) u.attachments c a.data

namespace Holds

theorem refits {S : AttachmentId → Prop} (h : Holds env localDb remote u y d) (hr : Refits x S u u') (hne : y ≠ x)
    (hS : ∀ c, S c → LetsGo env localDb remote x c) : Holds env localDb remote u' y d := by
  obtain ⟨e, he, hatt, hslots⟩ := h
  refine ⟨e, (hr.others y hne).trans he, hatt, fun c hc => ?_⟩
  obtain ⟨a, ha, hg⟩ := hslots c hc
  exact ⟨a, ha, hr.guarded (fun c hc => ⟨hne.symm, hS c hc⟩) hg⟩

theorem mem_pool (h : Holds env localDb remote u y d) (hm : u.entry y = some m) (hc : m.Uses c) :
    c ∈ u.attachments := by
  obtain ⟨e, he, hatt, hslots⟩ := h
  rw [hm, Option.some.injEq] at he; subst he
  obtain ⟨n, hc⟩ := hc
  obtain ⟨_, -, a', ha', -⟩ := hslots c ⟨n, hatt ▸ hc⟩
  exact Finmap.mem_of_lookup_eq_some ha'

theorem bytesOf (h : Holds env localDb remote u y d) (hm : u.entry y = some m) :
    bytesOf u m.toVersion = Falach.bytesOf localDb d.toVersion := by
  obtain ⟨e, he, hatt, hslots⟩ := h
  rw [hm, Option.some.injEq] at he; subst he
  exact Stages.bytesOf_of_guarded hatt hslots

end Holds

/-! ## The passes together -/

variable {t : Database} {localPre remotePre rest : List Entry}

/-- The database as it is before the first pass. -/
structure Backfilled (env : Env) (localDb remote v : Database) : Prop where
  mem : ∀ id, id ∈ v.entries ↔ EntryStays env localDb remote id
  entry : ∀ id e, v.entry id = some e → (∃ d, localDb.entry id = some d ∧ e.attachments = d.attachments) ∨
    (localDb.entry id = none ∧ ∃ s, remote.entry id = some s ∧ e.attachments = s.attachments)
  drains : Drains (LeavesSlot env localDb remote) localDb.attachments v.attachments

theorem backfilled_of_merge (hl : Linked localDb) (hr : Linked remote) (h : localDb.merge env remote = .ok t)
    (grows : HistoryGrows t v) : Backfilled env localDb remote v := by
  have outcome := merge_outcome hl hr h
  refine ⟨fun id => (grows.mem id).trans outcome.mem_entries, fun id e => grown_attachments outcome grows, ?_⟩
  rw [grows.attachments]
  exact merge_drains hl hr h

theorem Backfilled.holds (b : Backfilled env localDb remote v) (stocked : Stocked env localDb remote)
    (h : Overtaken env localDb remote y d s) : Holds env localDb remote v y d := by
  obtain ⟨e, he⟩ := (mem_entries v).1 ((b.mem y).2 h.stays)
  refine ⟨e, he, ?_, fun c hc => ?_⟩
  · rcases b.entry y e he with ⟨d', hd', hatt⟩ | ⟨hnone, -⟩
    · rw [h.here, Option.some.injEq] at hd'; subst hd'
      exact hatt
    · rw [h.here] at hnone; cases hnone
  · obtain ⟨_, a, ha, rfl, hcases⟩ := stocked.leaving y d s c h hc
    refine ⟨a, ha, b.drains.guarded (fun x hx => ⟨?_, .removed hx⟩) ⟨a, ha, rfl, hcases⟩⟩
    rintro rfl
    exact hx.1 h.stays

/-- The database with the first pass done for all but `rest`. -/
structure FirstPass (env : Env) (localDb remote : Database) (rest : List Entry) (u : Database) : Prop where
  mem : ∀ id, id ∈ u.entries → EntryStays env localDb remote id
  todo : ∀ s ∈ rest, localDb.entry s.id = none → ∀ e, u.entry s.id = some e → e.attachments = s.attachments
  holds : ∀ y d s, Overtaken env localDb remote y d s → Holds env localDb remote u y d

theorem FirstPass.next (h : FirstPass env localDb remote (s :: rest) u) (hl : Linked localDb)
    (hlocal : collectLiveEntries env .walkLocal localDb = .ok localPre) (hs : remote.entry s.id = some s)
    (hn : s.id ∉ rest.map (·.id)) (stocked : Stocked env localDb remote) :
    ∃ u', repairAdded env remote localPre u s = .ok u' ∧ FirstPass env localDb remote rest u' := by
  have added : s.id ∉ localPre.map (·.id) → localDb.entry s.id = none := fun hno => by
    rw [mem_ids_collectLiveEntries hl hlocal] at hno
    exact Finmap.notMem_iff_lookup.1 hno
  obtain ⟨u', hu'⟩ := repairAdded_total env u hs fun hno c => stocked.added s.id s c (added hno) hs
  have hrefits := repairAdded_refits hs hu'
  have same := (repairAdded_attachmentEdit hu').sameTree
  refine ⟨u', hu', fun id hid => h.mem id (same.mem_entries_iff.1 hid), fun x hx hnone e he => ?_,
    fun y d s' hover => ?_⟩
  · have hne : x.id ≠ s.id := fun heq => hn (List.mem_map.2 ⟨x, hx, heq⟩)
    exact h.todo x (List.mem_cons_of_mem s hx) hnone e ((hrefits.others x.id hne).symm.trans he)
  · by_cases hlocal : s.id ∈ localPre.map (·.id)
    · rcases repairAdded_cases hs hu' with ⟨rfl, -⟩ | ⟨hno, -⟩
      · exact h.holds y d s' hover
      · exact absurd hlocal hno
    · have hnone := added hlocal
      refine (h.holds y d s' hover).refits hrefits ?_ fun c hc => ?_
      · rintro rfl
        rw [hover.here] at hnone; cases hnone
      · obtain ⟨-, e, he, n, hc⟩ := hc
        have hstays := h.mem s.id ((mem_entries u).2 ⟨e, he⟩)
        exact .repaired s hstays hnone hs ⟨n, h.todo s List.mem_cons_self hnone e he ▸ hc⟩

/-- The database with the second pass done for all but `rest`. -/
structure SecondPass (env : Env) (localDb remote : Database) (rest : List Entry) (u : Database) : Prop where
  mem : ∀ id, id ∈ u.entries → EntryStays env localDb remote id
  holds : ∀ s ∈ rest, ∀ d, Overtaken env localDb remote s.id d s → Holds env localDb remote u s.id d

theorem SecondPass.next (h : SecondPass env localDb remote (s :: rest) u) (hl : Linked localDb)
    (hlocal : collectLiveEntries env .walkLocal localDb = .ok localPre) (hs : remote.entry s.id = some s)
    (hn : s.id ∉ rest.map (·.id)) (stocked : Stocked env localDb remote) :
    ∃ u', propagate env remote localPre u s = .ok u' ∧ SecondPass env localDb remote rest u' := by
  have skips : propagate env remote localPre u s = .ok u →
      ∃ u', propagate env remote localPre u s = .ok u' ∧ SecondPass env localDb remote rest u' := fun hu =>
    ⟨u, hu, h.mem, fun x hx => h.holds x (List.mem_cons_of_mem s hx)⟩
  have hlm := lookup_preLastModification hl hlocal s.id
  cases hd : localDb.entry s.id with
  | none =>
    rw [hd, Option.map_none] at hlm
    refine skips ?_
    unfold propagate
    rw [hlm]; rfl
  | some d =>
    rw [hd, Option.map_some] at hlm
    cases hnewer : timeLe s.times.lastModification d.times.lastModification with
    | true =>
      refine skips ?_
      unfold propagate
      simp only [hlm, hnewer, if_true]; rfl
    | false =>
      cases hm : u.entry s.id with
      | none =>
        refine skips ?_
        unfold propagate
        simp only [hlm, hnewer, hs, hm]; rfl
      | some m =>
        -- the pass acts: the bytes it wants are in the pool, since no round before took them away
        have hstays := h.mem s.id ((mem_entries u).2 ⟨m, hm⟩)
        have hover : Overtaken env localDb remote s.id d s := ⟨hstays, hd, hs, hnewer⟩
        have holds := h.holds s List.mem_cons_self d hover
        obtain ⟨u', hu'⟩ := adoptAttachments_total env hm (fun c => stocked.arriving s.id d s c hover)
          fun c => holds.mem_pool hm
        have hstep : propagate env remote localPre u s = .ok u' := by
          unfold propagate
          simp only [hlm, hnewer, hs, hm]
          exact hu'
        have same := (propagate_attachmentEdit hstep).sameTree
        refine ⟨u', hstep, fun id hid => h.mem id (same.mem_entries_iff.1 hid), fun x hx d' hover' => ?_⟩
        have hne : x.id ≠ s.id := fun heq => hn (List.mem_map.2 ⟨x, hx, heq⟩)
        have holds' := h.holds x (List.mem_cons_of_mem s hx) d' hover'
        rcases adoptAttachments_cases hm hu' with ⟨rfl, -⟩ | ⟨hdiffers, hrefits, -⟩
        · exact holds'
        · rw [holds.bytesOf hm] at hdiffers
          refine holds'.refits hrefits hne fun c hc => ?_
          obtain ⟨e, he, hatt, -⟩ := holds
          rw [hm, Option.some.injEq] at he; subst he
          obtain ⟨n, hc⟩ := hc
          exact .adopted d s hstays ⟨hd, hs, hnewer, hdiffers⟩ ⟨n, hatt ▸ hc⟩

/-! ## The whole of it -/

/-- A `reconcile` of two databases with one root returns if nothing is in the way of the merge, and otherwise stops
with the merge's error. It does not panic. -/
theorem reconcile_decides (env : Env) (hl : Linked localDb) (hr : Linked remote) (hroot : remote.root = localDb.root)
    (stocked : Stocked env localDb remote) :
    (Settleable env localDb remote ∧ ∃ merged delta, reconcile env localDb remote = .ok (merged, delta)) ∨
      (¬ Settleable env localDb remote ∧ ∃ e left, reconcile env localDb remote = .error (.merge e left)) := by
  obtain ⟨before, hbefore⟩ := entryTimes_total env .walkBefore hl
  obtain ⟨localPre, hlocal⟩ := collectLiveEntries_total env .walkLocal hl
  obtain ⟨remotePre, hremote⟩ := collectLiveEntries_total env .walkRemote hr
  rcases merge_decides env hl hr hroot stocked.removable with ⟨settleable, t, ht⟩ | ⟨hno, e, left, hfault⟩
  case inr =>
    refine .inr ⟨hno, e, left, ?_⟩
    simp only [reconcile, hbefore, hlocal, hremote, hfault, bind, Except.bind]
  refine .inl ⟨settleable, ?_⟩
  have grows : HistoryGrows t (backfillLostVersions (backfillLostVersions t localPre) remotePre) :=
    (backfillLostVersions_grows localPre t).trans (backfillLostVersions_grows remotePre _)
  have grown := backfilled_of_merge hl hr ht grows
  have own : ∀ s ∈ remotePre, remote.entry s.id = some s := fun s => (mem_collectLiveEntries hr hremote).1
  have nodup := collectLiveEntries_nodup hr hremote
  have notLater : ∀ {s rest}, s :: rest <:+ remotePre → s.id ∉ rest.map (·.id) := fun hsuf =>
    (List.nodup_cons.1 (nodup.sublist (hsuf.sublist.map _))).1
  obtain ⟨u, hu, first⟩ := Loop.foldlM_total_rest (f := repairAdded env remote localPre) (l := remotePre)
    (FirstPass env localDb remote)
    (fun s rest u hsuf h => h.next hl hlocal (own s (hsuf.subset List.mem_cons_self)) (notLater hsuf) stocked)
    ⟨fun id => (grown.mem id).1, fun s hs hnone e he => by
      rcases grown.entry s.id e he with ⟨d, hd, -⟩ | ⟨-, s', hs', hatt⟩
      · rw [hnone] at hd; cases hd
      · rw [own s hs, Option.some.injEq] at hs'; subst hs'
        exact hatt, fun y d s => grown.holds stocked⟩
  obtain ⟨merged, hmerged, -⟩ := Loop.foldlM_total_rest (f := propagate env remote localPre) (l := remotePre)
    (SecondPass env localDb remote)
    (fun s rest u hsuf h => h.next hl hlocal (own s (hsuf.subset List.mem_cons_self)) (notLater hsuf) stocked)
    ⟨first.mem, fun s _ d hover => first.holds s.id d s hover⟩
  have edits : AttachmentEdit _ merged :=
    (Loop.foldlM_rel AttachmentEdit .refl .trans (fun _ _ _ _ h => repairAdded_attachmentEdit h) hu).trans
      (Loop.foldlM_rel AttachmentEdit .refl .trans (fun _ _ _ _ h => propagate_attachmentEdit h) hmerged)
  have linked : Linked merged := (grows.sameTree.trans edits.sameTree).linkedBut (merge_outcome hl hr ht).linked
  obtain ⟨after, hafter⟩ := entryTimes_total env .walkAfter linked
  refine ⟨merged, deltaBetween before after, ?_⟩
  simp only [reconcile, hbefore, hlocal, hremote, ht, repairAddedEntryAttachments, hu, propagateBothSideAttachments,
    hmerged, hafter, bind, Except.bind]
  rfl

end Falach
