import Falach.Sync.AttachmentPasses
/-!
# What becomes of named attachments

A slot of the local pool goes when an entry lets go of it and no back-reference of another entry is left, also when
another entry still uses it. The conditions say which entries let go of which slots during a whole `reconcile`, and
that none of them empties a slot another local entry uses; then every entry has the attachments it should have.
-/

namespace Falach

open Keepass Database

variable {env : Env} {localDb remote merged : Database} {delta : EntryDelta} {x y : EntryId} {d e s : Entry}
  {c : AttachmentId}

/-! ## Conditions on the two databases -/

/-- The entry is on both sides, strictly newer in `remote`, and its named bytes are not those it has in `remote`. -/
structure Adopts (localDb remote : Database) (x : EntryId) (d s : Entry) : Prop where
  here : localDb.entry x = some d
  there : remote.entry x = some s
  newer : timeLe s.times.lastModification d.times.lastModification = false
  differs : bytesOf localDb d.toVersion ≠ bytesOf remote s.toVersion

/-- Entry `x` lets go of slot `c`: because it is removed, or because its attachments are added again. An entry only in
`remote` comes with the numbers it has there. -/
inductive LetsGo (env : Env) (localDb remote : Database) (x : EntryId) (c : AttachmentId) : Prop where
  | removed : LeavesSlot env localDb remote x c → LetsGo env localDb remote x c
  | repaired (s : Entry) : EntryStays env localDb remote x → localDb.entry x = none → remote.entry x = some s →
      s.Uses c → LetsGo env localDb remote x c
  | adopted (d s : Entry) : EntryStays env localDb remote x → Adopts localDb remote x d s → d.Uses c →
      LetsGo env localDb remote x c

/-- No slot that a local entry uses, which stays, is emptied by the others. -/
def Undisturbed (env : Env) (localDb remote : Database) : Prop :=
  ∀ y d c, EntryStays env localDb remote y → localDb.entry y = some d → d.Uses c →
    ∃ data, Guarded (fun x c => x ≠ y ∧ LetsGo env localDb remote x c) localDb.attachments c data

/-- A name of the local version that goes shares its slot with one that stays only if another entry keeps the slot. -/
def Parts (env : Env) (localDb remote : Database) (d s : Version) : Prop :=
  ∀ n n' c, d.attachments.lookup n = some c → d.attachments.lookup n' = some c → n ∉ s.attachments →
    n' ∈ s.attachments → ∃ data, Guarded (LetsGo env localDb remote) localDb.attachments c data

/-- The entries to repair, in their order, each give up their old numbers before these are given out again. -/
inductive Refreshes (env : Env) (localDb remote : Database) : Slots → List Entry → Prop where
  | nil (t : Slots) : Refreshes env localDb remote t []
  | skip {t : Slots} {s : Entry} {rest : List Entry} :
      ¬ (localDb.entry s.id = none ∧ EntryStays env localDb remote s.id) → Refreshes env localDb remote t rest →
      Refreshes env localDb remote t (s :: rest)
  | readd {t t' : Slots} {s : Entry} {rest : List Entry} :
      localDb.entry s.id = none ∧ EntryStays env localDb remote s.id →
      Slots.readd s.id t [] (stale env s) = some t' → Refreshes env localDb remote t' rest →
      Refreshes env localDb remote t (s :: rest)

/-- In whatever pool the removals leave, the entries to repair get new slots. -/
def Repairable (env : Env) (localDb remote : Database) : Prop :=
  ∀ pool remotePre, Drains (LeavesSlot env localDb remote) localDb.attachments pool →
    collectLiveEntries env .walkRemote remote = .ok remotePre →
    Refreshes env localDb remote (pool.mapVals (·.entries)) remotePre

/-- What is let go of determines the back-references that are left. -/
theorem slots_of_drains {D : EntryId → AttachmentId → Prop} {p q q' : Pool} (h : Drains D p q) (h' : Drains D p q') :
    q.mapVals (·.entries) = q'.mapVals (·.entries) := by
  refine Finmap.ext_lookup fun c => ?_
  rw [Finmap.lookup_mapVals, Finmap.lookup_mapVals]
  cases hc : p.lookup c with
  | none => rw [h.empty c hc, h'.empty c hc]
  | some a =>
    by_cases gone : (∃ x, D x c) ∧ ∀ r ∈ a.entries, D r.1 c
    · rw [h.erased c a hc gone.1 gone.2, h'.erased c a hc gone.1 gone.2]
    · have left : (∀ x, ¬ D x c) ∨ ∃ r ∈ a.entries, ¬ D r.1 c := by
        by_cases hD : ∃ x, D x c
        · exact .inr (by simpa using fun hno => gone ⟨hD, hno⟩)
        · exact .inl (not_exists.1 hD)
      obtain ⟨a₁, ha₁, -, hmem₁⟩ := h.left c a hc left
      obtain ⟨a₂, ha₂, -, hmem₂⟩ := h'.left c a hc left
      rw [ha₁, ha₂, Option.map_some, Option.map_some]
      exact congrArg some (Finset.ext fun r => (hmem₁ r).trans (hmem₂ r).symm)

/-! ## Before the passes -/

/-- The attachments of an entry are those it has in `localDb`, or in `remote` if it comes from there. -/
theorem grown_attachments {vendored u : Database} (outcome : Outcome env localDb remote vendored)
    (grows : HistoryGrows vendored u) (he : u.entry x = some e) :
    (∃ d, localDb.entry x = some d ∧ e.attachments = d.attachments) ∨
      (localDb.entry x = none ∧ ∃ s, remote.entry x = some s ∧ e.attachments = s.attachments) := by
  obtain ⟨e', he', hv, -⟩ := grows.entry x e he
  have hatt : e.attachments = e'.attachments := congrArg (·.attachments) hv
  rcases outcome.attachments he' with ⟨d, hd, heq⟩ | ⟨hd, hs⟩
  · exact .inl ⟨d, hd, hatt.trans heq⟩
  · exact .inr ⟨hd, e', hs, hatt⟩

namespace Stages

variable (stages : Stages env localDb remote merged delta) (hl : Linked localDb) (hr : Linked remote)

include hl hr in
theorem backfilled_mem (id : EntryId) : id ∈ stages.backfilled.entries ↔ EntryStays env localDb remote id := by
  rw [stages.backfilled_grows.mem]
  exact (merge_outcome hl hr stages.merge_eq).mem_entries

include hl hr in
theorem backfilled_attachments {id : EntryId} (he : stages.backfilled.entry id = some e) :
    (∃ d, localDb.entry id = some d ∧ e.attachments = d.attachments) ∨
      (localDb.entry id = none ∧ ∃ s, remote.entry id = some s ∧ e.attachments = s.attachments) :=
  grown_attachments (merge_outcome hl hr stages.merge_eq) stages.backfilled_grows he

include hl hr in
theorem backfilled_drains : Drains (LeavesSlot env localDb remote) localDb.attachments
    stages.backfilled.attachments := by
  rw [stages.backfilled_grows.attachments]
  exact merge_drains hl hr stages.merge_eq

/-- The local walk finds the entries of `localDb`. -/
theorem mem_localPre (hl : Linked localDb) {id : EntryId} : id ∈ stages.localPre.map (·.id) ↔ id ∈ localDb.entries :=
  mem_ids_collectLiveEntries hl stages.localPre_eq

/-- What the remote walk finds is stored under its own UUID. -/
theorem remotePre_entry (hr : Linked remote) (hs : s ∈ stages.remotePre) : remote.entry s.id = some s :=
  (mem_collectLiveEntries hr stages.remotePre_eq).1 hs

theorem mem_remotePre (hr : Linked remote) (hs : remote.entry x = some s) : s ∈ stages.remotePre ∧ s.id = x := by
  obtain rfl := hr.entry_id hs
  exact ⟨(mem_collectLiveEntries hr stages.remotePre_eq).2 hs, rfl⟩

/-! ## The pass for added entries -/

/-- `u` is what the repair of all but `rest` makes of the database. -/
structure Repairing (rest : List Entry) (u : Database) : Prop where
  locals : ∀ id, id ∈ localDb.entries → u.entry id = stages.backfilled.entry id
  todo : ∀ s ∈ rest, u.entry s.id = stages.backfilled.entry s.id
  mem : ∀ id, id ∈ u.entries → EntryStays env localDb remote id
  guards : ∀ D : EntryId → AttachmentId → Prop, (∀ x c s, EntryStays env localDb remote x → localDb.entry x = none →
    remote.entry x = some s → s.Uses c → D x c) → ∀ c data, Guarded D stages.backfilled.attachments c data →
    Guarded D u.attachments c data
  owns : Refreshes env localDb remote (slots stages.backfilled) stages.remotePre →
    Refreshes env localDb remote (slots u) rest ∧ ∀ s ∈ stages.remotePre, s.id ∉ rest.map (·.id) →
      localDb.entry s.id = none → EntryStays env localDb remote s.id → Owns u s.id remote s.toVersion
  lost : ¬ Refreshes env localDb remote (slots stages.backfilled) stages.remotePre →
    ¬ Refreshes env localDb remote (slots u) rest ∨ ∃ s ∈ stages.remotePre, s.id ∉ rest.map (·.id) ∧
      localDb.entry s.id = none ∧ ∃ n ∈ s.attachments, ∃ e, u.entry s.id = some e ∧ n ∉ e.attachments

include hl hr in
/-- One round of the repair. -/
theorem repairing_step {rest : List Entry} {u u' : Database} (hn : ((s :: rest).map (·.id)).Nodup)
    (hmem : s ∈ stages.remotePre) (inv : stages.Repairing (s :: rest) u)
    (h : repairAdded env remote stages.localPre u s = .ok u') : stages.Repairing rest u' := by
  have hs := stages.remotePre_entry hr hmem
  have hrefits := repairAdded_refits hs h
  obtain ⟨hnot, hn⟩ := List.nodup_cons.1 hn
  have hlocal : s.id ∉ stages.localPre.map (·.id) ↔ localDb.entry s.id = none := by
    rw [stages.mem_localPre hl, Finmap.notMem_iff_lookup]; rfl
  -- what the entry has before its round
  have before : ∀ e, localDb.entry s.id = none → u.entry s.id = some e → e.attachments = s.attachments := by
    intro e hnone he
    rw [inv.todo s List.mem_cons_self] at he
    rcases stages.backfilled_attachments hl hr he with ⟨d, hd, -⟩ | ⟨-, s', hs', hatt⟩
    · rw [hnone] at hd; cases hd
    · rw [hs, Option.some.injEq] at hs'; subst hs'
      exact hatt
  have skipped : ¬ (localDb.entry s.id = none ∧ EntryStays env localDb remote s.id) → u' = u := by
    intro hno
    rcases repairAdded_cases hs h with ⟨heq, -⟩ | ⟨hpre, hthere, -⟩
    · exact heq
    · exact absurd ⟨hlocal.1 hpre, inv.mem s.id hthere⟩ hno
  have present : EntryStays env localDb remote s.id → ∃ e, u.entry s.id = some e := fun hstays => by
    rw [inv.todo s List.mem_cons_self]
    exact (mem_entries _).1 ((stages.backfilled_mem hl hr s.id).2 hstays)
  refine ⟨fun id hid => ?_, fun x hx => ?_, fun id hid => ?_, fun D hD c data hg => ?_, fun hready => ?_,
    fun hstuck => ?_⟩
  · by_cases heq : id = s.id
    · subst heq
      rw [skipped fun hadded => Finmap.notMem_iff_lookup.2 hadded.1 hid]
      exact inv.locals _ hid
    · rw [hrefits.others id heq]
      exact inv.locals id hid
  · have hne : x.id ≠ s.id := fun heq => hnot (List.mem_map.2 ⟨x, hx, heq⟩)
    rw [hrefits.others x.id hne]
    exact inv.todo x (List.mem_cons_of_mem s hx)
  · by_cases heq : id = s.id
    · subst heq
      by_cases hthere : s.id ∈ u.entries
      · exact inv.mem _ hthere
      · rcases repairAdded_cases hs h with ⟨rfl, -⟩ | ⟨-, hthere', -⟩
        · exact inv.mem _ hid
        · exact absurd hthere' hthere
    · obtain ⟨e, he⟩ := (mem_entries u').1 hid
      rw [hrefits.others id heq] at he
      exact inv.mem id ((mem_entries u).2 ⟨e, he⟩)
  · refine hrefits.guarded (fun c hc => ?_) (inv.guards D hD c data hg)
    obtain ⟨hpre, e, he, hc⟩ := hc
    obtain ⟨n, hn⟩ := hc
    have hnone := hlocal.1 hpre
    exact hD s.id c s (inv.mem _ ((mem_entries u).2 ⟨e, he⟩)) hnone hs ⟨n, before e hnone he ▸ hn⟩
  · obtain ⟨hrest, howns⟩ := inv.owns hready
    by_cases hadded : localDb.entry s.id = none ∧ EntryStays env localDb remote s.id
    · obtain ⟨t, ht, hrest⟩ : ∃ t, Slots.readd s.id (slots u) [] (stale env s) = some t ∧
          Refreshes env localDb remote t rest := by
        cases hrest with
        | skip hno _ => exact absurd hadded hno
        | readd _ ht hrest => exact ⟨_, ht, hrest⟩
      obtain ⟨e, he⟩ := present hadded.2
      obtain ⟨hown, hslots⟩ := repairAdded_owns hs (hlocal.2 hadded.1) he (before e hadded.1 he) ht h
      refine ⟨hslots ▸ hrest, fun x hx hxnot hnone hstays => ?_⟩
      by_cases heq : x.id = s.id
      · have hxs : x = s := by
          have := stages.remotePre_entry hr hx
          rw [heq, hs, Option.some.injEq] at this
          exact this.symm
        rw [hxs]; exact hown
      · refine (howns x hx ?_ hnone hstays).refits hrefits heq
        rw [List.map_cons, List.mem_cons, not_or]
        exact ⟨heq, hxnot⟩
    · rw [skipped hadded]
      refine ⟨?_, fun x hx hxnot hnone hstays => howns x hx ?_ hnone hstays⟩
      · cases hrest with
        | skip _ hrest => exact hrest
        | readd hyes _ _ => exact absurd hyes hadded
      · rw [List.map_cons, List.mem_cons, not_or]
        exact ⟨fun heq => hadded ⟨heq ▸ hnone, heq ▸ hstays⟩, hxnot⟩
  · rcases inv.lost hstuck with hrest | ⟨x, hx, hxnot, hnone, n, hn, e, he, hlost⟩
    · by_cases hadded : localDb.entry s.id = none ∧ EntryStays env localDb remote s.id
      · obtain ⟨e, he⟩ := present hadded.2
        cases ht : Slots.readd s.id (slots u) [] (stale env s) with
        | none =>
          obtain ⟨n, hn, e', he', hlost⟩ := repairAdded_loses hs (hlocal.2 hadded.1) he (before e hadded.1 he) ht h
          exact .inr ⟨s, hmem, hnot, hadded.1, n, hn, e', he', hlost⟩
        | some t =>
          obtain ⟨-, hslots⟩ := repairAdded_owns hs (hlocal.2 hadded.1) he (before e hadded.1 he) ht h
          exact .inl fun hrefreshes => hrest (.readd hadded ht (hslots ▸ hrefreshes))
      · rw [skipped hadded]
        exact .inl fun hrefreshes => hrest (.skip hadded hrefreshes)
    · obtain ⟨hne, hxnot⟩ := not_or.1 (List.mem_cons.not.1 hxnot)
      exact .inr ⟨x, hx, hxnot, hnone, n, hn, e, (hrefits.others x.id hne).trans he, hlost⟩

include hl hr in
theorem backfilled_repairing : stages.Repairing stages.remotePre stages.backfilled := by
  refine ⟨fun _ _ => rfl, fun _ _ => rfl, fun id hid => (stages.backfilled_mem hl hr id).1 hid,
    fun _ _ _ _ hg => hg, fun hready => ⟨hready, fun s hs hnot _ _ => ?_⟩, fun hstuck => .inl hstuck⟩
  exact absurd (List.mem_map_of_mem hs) hnot

include hl hr in
/-- The whole repair. -/
theorem repaired_repairing : stages.Repairing [] stages.repaired := by
  have hn := collectLiveEntries_nodup hr stages.remotePre_eq
  refine Loop.foldlM_inv_rest stages.Repairing (fun s rest u u' hsuffix inv h => ?_) stages.repair_eq
    (stages.backfilled_repairing hl hr)
  have hn' := hn.sublist (hsuffix.sublist.map _)
  exact stages.repairing_step hl hr hn' (hsuffix.subset List.mem_cons_self) inv h

/-! ## The pass for entries on both sides -/

/-- `u` is what the pass makes of the database, all but `rest` done. -/
structure Propagating (rest : List Entry) (u : Database) : Prop where
  mem : ∀ id, id ∈ u.entries → EntryStays env localDb remote id
  guards : ∀ c data, Guarded (LetsGo env localDb remote) localDb.attachments c data →
    Guarded (LetsGo env localDb remote) u.attachments c data
  -- not rewritten, or not yet: the slots are as they were
  kept : ∀ y d, EntryStays env localDb remote y → localDb.entry y = some d →
    (¬ (∃ s, Adopts localDb remote y d s) ∨ y ∈ rest.map (·.id)) → ∃ e, u.entry y = some e ∧
      e.attachments = d.attachments ∧ ∀ c, d.Uses c → ∃ a, localDb.attachments.lookup c = some a ∧
        Guarded (fun x c => x ≠ y ∧ LetsGo env localDb remote x c) u.attachments c a.data
  adopted : ∀ y d s, EntryStays env localDb remote y → Adopts localDb remote y d s → y ∉ rest.map (·.id) →
    Parts env localDb remote d.toVersion s.toVersion → Owns u y remote s.toVersion
  added : Refreshes env localDb remote (slots stages.backfilled) stages.remotePre → ∀ s ∈ stages.remotePre,
    localDb.entry s.id = none → EntryStays env localDb remote s.id → Owns u s.id remote s.toVersion
  arrived : ∀ id, localDb.entry id = none → u.entry id = stages.repaired.entry id

/-- Slots left as they were still hold what they held. -/
theorem bytesOf_of_guarded {db u : Database} {d e : Version} {D : EntryId → AttachmentId → Prop}
    (hatt : e.attachments = d.attachments) (h : ∀ c, d.Uses c → ∃ a, db.attachments.lookup c = some a ∧
      Guarded D u.attachments c a.data) : bytesOf u e = bytesOf db d := by
  refine Finmap.ext_lookup fun n => ?_
  rw [lookup_bytesOf, lookup_bytesOf, hatt]
  cases hn : d.attachments.lookup n with
  | none => rfl
  | some c =>
    obtain ⟨a, ha, a', ha', hdata, -⟩ := h c ⟨n, hn⟩
    rw [Option.map_some, Option.map_some, ha, ha', Option.map_some, Option.map_some, hdata]

include hl hr in
theorem repaired_propagating (undisturbed : Undisturbed env localDb remote) :
    stages.Propagating stages.remotePre stages.repaired := by
  have inv := stages.repaired_repairing hl hr
  have drains := stages.backfilled_drains hl hr
  -- a slot that is guarded at first is guarded after the merge and after the repair
  have through : ∀ D : EntryId → AttachmentId → Prop, (∀ x c, LeavesSlot env localDb remote x c → D x c) →
      (∀ x c s, EntryStays env localDb remote x → localDb.entry x = none → remote.entry x = some s → s.Uses c → D x c) →
      ∀ c data, Guarded D localDb.attachments c data → Guarded D stages.repaired.attachments c data :=
    fun D hleaves hrepaired c data hg => inv.guards D hrepaired c data (drains.guarded (fun x hx => hleaves x c hx) hg)
  refine ⟨inv.mem, ?_, fun y d hstays hd _ => ?_, fun y d s _ hadopts hnot _ => ?_, fun hready s hs hnone hstays =>
    (inv.owns hready).2 s hs List.not_mem_nil hnone hstays, fun _ _ => rfl⟩
  · exact through _ (fun x c hx => .removed hx) fun x c s hstays hnone hs hc => .repaired s hstays hnone hs hc
  · obtain ⟨e, he⟩ := (mem_entries _).1 ((stages.backfilled_mem hl hr y).2 hstays)
    have hatt : e.attachments = d.attachments := by
      rcases stages.backfilled_attachments hl hr he with ⟨d', hd', hatt⟩ | ⟨hnone, -⟩
      · rw [hd, Option.some.injEq] at hd'; subst hd'
        exact hatt
      · rw [hd] at hnone; cases hnone
    refine ⟨e, (inv.locals y ((mem_entries localDb).2 ⟨d, hd⟩)).trans he, hatt, fun c hc => ?_⟩
    obtain ⟨data, hg⟩ := undisturbed y d c hstays hd hc
    obtain ⟨a, ha, rfl, hcases⟩ := hg
    refine ⟨a, ha, through _ (fun x c hx => ⟨?_, .removed hx⟩) (fun x c s hx hnone hs hc =>
      ⟨?_, .repaired s hx hnone hs hc⟩)
      c a.data ⟨a, ha, rfl, hcases⟩⟩
    · rintro rfl
      exact hx.1 hstays
    · rintro rfl
      rw [hd] at hnone; cases hnone
  · obtain ⟨hmem, rfl⟩ := stages.mem_remotePre hr hadopts.there
    exact absurd (List.mem_map_of_mem hmem) hnot

include hl hr in
/-- One round of the pass. -/
theorem propagating_step {rest : List Entry} {u u' : Database} (hn : ((s :: rest).map (·.id)).Nodup)
    (hmem : s ∈ stages.remotePre) (inv : stages.Propagating (s :: rest) u)
    (h : propagate env remote stages.localPre u s = .ok u') : stages.Propagating rest u' := by
  have hs := stages.remotePre_entry hr hmem
  obtain ⟨hnot, hn⟩ := List.nodup_cons.1 hn
  have later : ∀ {y}, y ∈ rest.map (·.id) → y ∈ (s :: rest).map (·.id) := fun hy => List.mem_cons_of_mem _ hy
  -- a round that changes nothing is for an entry that need not change
  have skip : u' = u → (∀ d, EntryStays env localDb remote s.id → ¬ Adopts localDb remote s.id d s) →
      stages.Propagating rest u' := by
    rintro rfl hno
    have hno' : ∀ y d s', EntryStays env localDb remote y → Adopts localDb remote y d s' → y ≠ s.id := by
      rintro y d s' hstays hadopts rfl
      have := hadopts.there
      rw [hs, Option.some.injEq] at this; subst this
      exact hno d hstays hadopts
    refine ⟨inv.mem, inv.guards, fun y d hstays hd hcases => inv.kept y d hstays hd (hcases.imp_right later),
      fun y d s' hstays hadopts hy hparts => inv.adopted y d s' hstays hadopts ?_ hparts, inv.added, inv.arrived⟩
    rw [List.map_cons, List.mem_cons, not_or]
    exact ⟨hno' y d s' hstays hadopts, hy⟩
  by_cases hacts : ∃ d m, localDb.entry s.id = some d ∧ u.entry s.id = some m ∧
      timeLe s.times.lastModification d.times.lastModification = false
  · obtain ⟨d, m, hd, hm, hnewer⟩ := hacts
    have hstays := inv.mem s.id ((mem_entries u).2 ⟨m, hm⟩)
    obtain ⟨e, he, hatt, hslots⟩ := inv.kept s.id d hstays hd (.inr List.mem_cons_self)
    rw [hm, Option.some.injEq] at he; subst he
    have hbytes : bytesOf u m.toVersion = bytesOf localDb d.toVersion := bytesOf_of_guarded hatt hslots
    rcases adoptAttachments_cases hm (propagate_acts hl stages.localPre_eq hs hd hm hnewer h) with
      ⟨heq, hsame⟩ | ⟨hdiffers, hrefits, howns⟩
    · refine skip heq fun d' _ hadopts => hadopts.differs ?_
      have := hadopts.here
      rw [hd, Option.some.injEq] at this; subst this
      rw [← hbytes, hsame]
    · rw [hbytes] at hdiffers
      have hadopts : Adopts localDb remote s.id d s := ⟨hd, hs, hnewer, hdiffers⟩
      have letsGo : ∀ c, m.Uses c → LetsGo env localDb remote s.id c := by
        rintro c ⟨n, hc⟩
        exact .adopted d s hstays hadopts ⟨n, hatt ▸ hc⟩
      refine ⟨fun id hid => ?_, fun c data hg => hrefits.guarded letsGo (inv.guards c data hg),
        fun y d' hy hd' hcases => ?_, fun y d' s' hy hadopts' hyrest hparts => ?_, fun hready x hx hnone hxstays => ?_,
        fun id hnone => ?_⟩
      · by_cases heq : id = s.id
        · rw [heq]; exact hstays
        · obtain ⟨e, he⟩ := (mem_entries u').1 hid
          rw [hrefits.others id heq] at he
          exact inv.mem id ((mem_entries u).2 ⟨e, he⟩)
      · have hne : y ≠ s.id := by
          rintro rfl
          rw [hd, Option.some.injEq] at hd'; subst hd'
          rcases hcases with hno | hin
          · exact hno ⟨s, hadopts⟩
          · exact hnot hin
        obtain ⟨e, he, hatt', hslots'⟩ := inv.kept y d' hy hd' (hcases.imp_right later)
        refine ⟨e, (hrefits.others y hne).trans he, hatt', fun c hc => ?_⟩
        obtain ⟨a, ha, hg⟩ := hslots' c hc
        exact ⟨a, ha, hrefits.guarded (fun c hc => ⟨hne.symm, letsGo c hc⟩) hg⟩
      · by_cases heq : y = s.id
        · subst heq
          have := hadopts'.there
          rw [hs, Option.some.injEq] at this; subst this
          have := hadopts'.here
          rw [hd, Option.some.injEq] at this; subst this
          refine howns fun n n' c hn hn' hgoes hcomes => ?_
          rw [hatt] at hn hn'
          obtain ⟨data, hg⟩ := hparts n n' c hn hn' hgoes hcomes
          obtain ⟨a, ha, -, hcases⟩ := inv.guards c data hg
          have hlets := LetsGo.adopted d s hstays hadopts ⟨n, hn⟩
          obtain ⟨r, hr, hno⟩ := hcases.resolve_left fun hno => hno s.id hlets
          exact ⟨a, r, ha, hr, fun heq => hno (heq ▸ hlets)⟩
        · refine (inv.adopted y d' s' hy hadopts' ?_ hparts).refits hrefits heq
          rw [List.map_cons, List.mem_cons, not_or]
          exact ⟨heq, hyrest⟩
      · refine (inv.added hready x hx hnone hxstays).refits hrefits ?_
        intro heq
        rw [heq, hd] at hnone; cases hnone
      · rw [hrefits.others id fun heq => ?_]
        · exact inv.arrived id hnone
        · rw [heq, hd] at hnone; cases hnone
  · refine skip (propagate_skips hl stages.localPre_eq (fun d hd => ?_) h) fun d hstays hadopts => hacts ?_
    · by_contra hno
      obtain ⟨hle, hnone⟩ := not_or.1 hno
      obtain ⟨m, hm⟩ := Option.ne_none_iff_exists'.1 hnone
      exact hacts ⟨d, m, hd, hm, by simpa using hle⟩
    · obtain ⟨e, he, -⟩ := inv.kept s.id d hstays hadopts.here (.inr List.mem_cons_self)
      exact ⟨d, e, hadopts.here, he, hadopts.newer⟩

include hl hr in
/-- The whole pass. -/
theorem merged_propagating (undisturbed : Undisturbed env localDb remote) : stages.Propagating [] merged := by
  have hn := collectLiveEntries_nodup hr stages.remotePre_eq
  refine Loop.foldlM_inv_rest stages.Propagating (fun s rest u u' hsuffix inv h => ?_) stages.propagate_eq
    (stages.repaired_propagating hl hr undisturbed)
  have hn' := hn.sublist (hsuffix.sublist.map _)
  exact stages.propagating_step hl hr hn' (hsuffix.subset List.mem_cons_self) inv h

end Stages

/-! ## After a whole `reconcile` -/

/-- The named bytes of every entry after a `reconcile` in which no slot in use is emptied. -/
structure Attached (env : Env) (localDb remote merged : Database) : Prop where
  kept : ∀ y d m, localDb.entry y = some d → merged.entry y = some m → ¬ (∃ s, Adopts localDb remote y d s) →
    bytesOf merged m.toVersion = bytesOf localDb d.toVersion
  adopted : ∀ y d s m, Adopts localDb remote y d s → merged.entry y = some m →
    Parts env localDb remote d.toVersion s.toVersion → bytesOf merged m.toVersion = bytesOf remote s.toVersion
  added : Repairable env localDb remote ↔ ∀ x s m, localDb.entry x = none → remote.entry x = some s →
    merged.entry x = some m → bytesOf merged m.toVersion = bytesOf remote s.toVersion

theorem reconcile_attached (hl : Linked localDb) (hr : Linked remote)
    (h : reconcile env localDb remote = .ok (merged, delta)) (undisturbed : Undisturbed env localDb remote) :
    Attached env localDb remote merged := by
  obtain ⟨stages⟩ := reconcile_stages h
  have inv := stages.merged_propagating hl hr undisturbed
  refine ⟨fun y d m hd hm hno => ?_, fun y d s m hadopts hm hparts => ?_, fun hready x s m hnone hs hm => ?_,
    fun claim pool remotePre drains hwalk => ?_⟩
  · obtain ⟨e, he, hatt, hslots⟩ := inv.kept y d (inv.mem y ((mem_entries merged).2 ⟨m, hm⟩)) hd (.inl hno)
    rw [hm, Option.some.injEq] at he; subst he
    exact Stages.bytesOf_of_guarded hatt hslots
  · have hstays := inv.mem y ((mem_entries merged).2 ⟨m, hm⟩)
    exact (inv.adopted y d s hstays hadopts List.not_mem_nil hparts).bytesOf hm
  · obtain ⟨hmem, rfl⟩ := stages.mem_remotePre hr hs
    have hstays := inv.mem _ ((mem_entries merged).2 ⟨m, hm⟩)
    exact (inv.added (hready _ _ (stages.backfilled_drains hl hr) stages.remotePre_eq) s hmem hnone hstays).bytesOf hm
  · rw [stages.remotePre_eq, Except.ok.injEq] at hwalk; subst hwalk
    rw [slots_of_drains drains (stages.backfilled_drains hl hr)]
    by_contra hstuck
    rcases (stages.repaired_repairing hl hr).lost hstuck with hno | ⟨s, hs, -, hnone, n, hn, m, hm, hlost⟩
    · exact hno (.nil _)
    · rw [← inv.arrived s.id hnone] at hm
      have hbytes := claim s.id s m hnone (stages.remotePre_entry hr hs) hm
      rw [← bytesOf_mem remote, ← hbytes, bytesOf_mem] at hn
      exact hlost hn

end Falach
