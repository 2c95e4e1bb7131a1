import Falach.Sync.Attached
/-!
# Attachments of added entries

An added entry comes with the numbers its attachments have in `remote`. It gets its attachments back unless a number is
given out while the entry still has it, and the local entries keep theirs unless a slot they use is emptied.
-/

namespace Falach

open Keepass Database

variable {env : Env} {localDb remote merged : Database} {delta : EntryDelta}

/-- Every added entry has the named bytes it has in `remote`, and every entry only in `localDb` those it had. -/
def Repaired (localDb remote merged : Database) : Prop :=
  ∀ id m, Live merged id → merged.entry id = some m →
    (∀ s, Live remote id → remote.entry id = some s → ¬ Live localDb id →
      bytesOf merged m.toVersion = bytesOf remote s.toVersion) ∧
    ∀ d, Live localDb id → localDb.entry id = some d → ¬ Live remote id →
      bytesOf merged m.toVersion = bytesOf localDb d.toVersion

theorem notLive_iff {db : Database} (hl : Linked db) {id : EntryId} : ¬ Live db id ↔ db.entry id = none := by
  rw [live_iff hl]
  exact Finmap.notMem_iff_lookup

/-- Where no slot in use is emptied, the attachments are repaired exactly if the added entries get new slots. -/
theorem added_attachments_repaired_iff (hl : Linked localDb) (hr : Linked remote)
    (h : reconcile env localDb remote = .ok (merged, delta)) (undisturbed : Undisturbed env localDb remote) :
    Repaired localDb remote merged ↔ Repairable env localDb remote := by
  have attached := reconcile_attached hl hr h undisturbed
  have merged_linked := reconcile_linked hl hr h
  rw [attached.added]
  constructor
  · intro claim id s m hlocal hs hm
    refine (claim id m ?_ hm).1 s ?_ hs ((notLive_iff hl).2 hlocal)
    · exact (live_iff merged_linked).2 ((mem_entries merged).2 ⟨m, hm⟩)
    · exact (live_iff hr).2 ((mem_entries remote).2 ⟨s, hs⟩)
  · intro added id m _ hm
    refine ⟨fun s _ hs hlocal => added id s m ((notLive_iff hl).1 hlocal) hs hm, fun d _ hd hremote => ?_⟩
    refine attached.kept id d m hd hm fun ⟨s, hadopts⟩ => ?_
    have := hadopts.there
    rw [(notLive_iff hr).1 hremote] at this; cases this

/-! ## Two inputs -/

/-- The pool with one attachment, in slot `0`. -/
def onePool (data : Bytes) (owner : EntryId) : Pool :=
  Finmap.singleton 0 { id := 0, entries := {(owner, none)}, data := .unprotected data }

/-- Entry `id` of the root group, with one attachment in slot `0`. -/
def holder (id : EntryId) (time : NaiveDateTime) : Entry where
  id := id
  parent := 0
  times := { lastModification := some time }
  attachments := Finmap.singleton "file" 0

/-- An entry that is only in `remote`, with its attachment in slot `0`. -/
def newHolder : Database := { single (holder 6 20) with attachments := onePool [2] 6 }

/-- The local vault has no attachments, so slot `0` is given out to the entry that still has it. -/
theorem added_attachment_lost :
    reconcile (Env.inOrder 1000) (single (titled "bank" 10)) newHolder = .ok
      ({ single (titled "bank" 10) with
        entries := (Finmap.singleton 5 (titled "bank" 10)).insert 6
          { holder 6 1000 with attachments := ∅ }
        groups := Finmap.singleton 0 { id := 0, parent := none, entries := {6, 5} } }, { added := [6] }) ∧
    ¬ Repaired (single (titled "bank" 10)) newHolder
      { single (titled "bank" 10) with
        entries := (Finmap.singleton 5 (titled "bank" 10)).insert 6
          { holder 6 1000 with attachments := ∅ }
        groups := Finmap.singleton 0 { id := 0, parent := none, entries := {6, 5} } } := by
  refine ⟨by decide +kernel, fun claim => ?_⟩
  have hlost := (claim 6 { holder 6 1000 with attachments := ∅ } ⟨0, _, .root, rfl, by decide⟩ rfl).1 (holder 6 20)
    ⟨0, _, .root, rfl, by decide⟩ rfl
    ((notLive_iff (CheckedLinks.linked (by decide +kernel))).2 rfl)
  revert hlost
  decide +kernel

/-- The local vault with an attachment in slot `0`. -/
def oldHolder : Database := { single (holder 5 10) with attachments := onePool [1] 5 }

/-- Both attachments had slot `0`; the new one gets slot `1`. -/
def bothHolders : Database :=
  { single (holder 5 10) with
    entries := (Finmap.singleton 5 (holder 5 10)).insert 6
      { holder 6 1000 with attachments := Finmap.singleton "file" 1 }
    groups := Finmap.singleton 0 { id := 0, parent := none, entries := {6, 5} }
    attachments := (Finmap.singleton 1 { id := 1, entries := {(6, none)}, data := .unprotected [2] }).insert 0
      { id := 0, entries := {(5, none)}, data := .unprotected [1] } }

theorem added_attachments_repaired_iff_taken : Repaired oldHolder newHolder bothHolders := by
  have run : reconcile (Env.inOrder 1000) oldHolder newHolder = .ok (bothHolders, { added := [6] }) := by decide +kernel
  have hl : Linked oldHolder := CheckedLinks.linked (by decide +kernel)
  have hr : Linked newHolder := CheckedLinks.linked (by decide +kernel)
  have stays : ∀ id, id ∈ oldHolder.entries ∨ id ∈ newHolder.entries →
      EntryStays (Env.inOrder 1000) oldHolder newHolder id := by
    intro id hid
    rw [← live_merged_iff hl hr run, live_iff (reconcile_linked hl hr run)]
    rcases hid with hid | hid
    · rw [(Finmap.mem_singleton _ _ _).1 hid]; decide
    · rw [(Finmap.mem_singleton _ _ _).1 hid]; decide
  refine (added_attachments_repaired_iff hl hr run fun y d c _ hd hc => ?_).2 fun pool remotePre drains hwalk => ?_
  · obtain ⟨rfl, rfl⟩ := entry_single_some hd
    obtain ⟨n, hc⟩ := hc
    obtain rfl : n = "file" := (Finmap.mem_singleton _ _ _).1 (Finmap.mem_of_lookup_eq_some hc)
    obtain rfl : 0 = c := by simpa [holder, Finmap.lookup_singleton_eq] using hc
    exact ⟨_, _, Finmap.lookup_singleton_eq, rfl, .inr ⟨(5, none), Finset.mem_singleton_self _, fun h => h.1 rfl⟩⟩
  · have same : pool.mapVals (·.entries) = oldHolder.attachments.mapVals (·.entries) :=
      slots_of_drains drains ((Drains.refl _).congr fun x c => iff_of_false id (not_leavesSlot stays x c))
    rw [same]
    have walked : collectLiveEntries (Env.inOrder 1000) .walkRemote newHolder = .ok [holder 6 20] := by decide +kernel
    rw [walked, Except.ok.injEq] at hwalk
    subst hwalk
    have readd : Slots.readd 6 (oldHolder.attachments.mapVals (·.entries)) [] (stale (Env.inOrder 1000) (holder 6 20)) =
        some ((Finmap.singleton 1 {(6, none)}).insert 0 {(5, none)}) := by decide +kernel
    exact .readd ⟨rfl, stays 6 (.inr ((Finmap.mem_singleton _ _ _).2 rfl))⟩ readd (.nil _)

end Falach
