import Falach.Sync.Repairs
/-!
# Attachments follow the winner

The merge picks the side whose fields become current by the modification times with a default for a missing one; the
attachment pass compares the times as they are. Where the two agree, and no slot in use is emptied, the attachments of
an entry are those of the side its fields come from.
-/

namespace Falach

open Keepass Database

variable {env : Env} {localDb remote merged : Database} {delta : EntryDelta}

/-- The fields of the merged entry are those of `remote`. -/
def RemoteWins (now : NaiveDateTime) (d s : Version) : Prop :=
  s.times.lastModification.getD Times.epoch > d.times.lastModification.getD now

instance (now : NaiveDateTime) (d s : Version) : Decidable (RemoteWins now d s) := inferInstanceAs (Decidable (_ > _))

/-- Every entry on both sides has the named bytes of the side its fields come from, and no other entry of `localDb` has
other ones than before. -/
def FollowsWinner (env : Env) (localDb remote merged : Database) : Prop :=
  ∀ id m d, Live merged id → merged.entry id = some m → Live localDb id → localDb.entry id = some d →
    (∀ s, Live remote id → remote.entry id = some s → bytesOf merged m.toVersion =
      if RemoteWins (env.now .entriesInBoth id) d.toVersion s.toVersion then bytesOf remote s.toVersion
      else bytesOf localDb d.toVersion) ∧
    (¬ Live remote id → bytesOf merged m.toVersion = bytesOf localDb d.toVersion)

/-- The two comparisons have one outcome, or it does not matter which. -/
def Agree (env : Env) (localDb remote : Database) : Prop :=
  ∀ id d s, EntryStays env localDb remote id → localDb.entry id = some d → remote.entry id = some s →
    (RemoteWins (env.now .entriesInBoth id) d.toVersion s.toVersion ↔
      timeLe s.times.lastModification d.times.lastModification = false) ∨
    bytesOf localDb d.toVersion = bytesOf remote s.toVersion

/-- Names that go take no slot from names that stay. -/
def AllPart (env : Env) (localDb remote : Database) : Prop :=
  ∀ id d s, EntryStays env localDb remote id → Adopts localDb remote id d s →
    Parts env localDb remote d.toVersion s.toVersion

/-- The named bytes of an entry on both sides, by what the pass compares. -/
theorem bytesOf_both (hl : Linked localDb) (hr : Linked remote) (h : reconcile env localDb remote = .ok (merged, delta))
    (undisturbed : Undisturbed env localDb remote) (parts : AllPart env localDb remote) {id : EntryId} {m d s : Entry}
    (hm : merged.entry id = some m) (hd : localDb.entry id = some d) (hs : remote.entry id = some s) :
    bytesOf merged m.toVersion = if timeLe s.times.lastModification d.times.lastModification = false then
      bytesOf remote s.toVersion else bytesOf localDb d.toVersion := by
  have attached := reconcile_attached hl hr h undisturbed
  have hlive : Live merged id := (live_iff (reconcile_linked hl hr h)).2 ((mem_entries merged).2 ⟨m, hm⟩)
  by_cases hadopts : Adopts localDb remote id d s
  · rw [if_pos hadopts.newer]
    exact attached.adopted id d s m hadopts hm (parts id d s ((live_merged_iff hl hr h id).1 hlive) hadopts)
  · have hno : ¬ ∃ s, Adopts localDb remote id d s := by
      rintro ⟨s', hadopts'⟩
      have := hadopts'.there
      rw [hs, Option.some.injEq] at this; subst this
      exact hadopts hadopts'
    rw [attached.kept id d m hd hm hno]
    split
    · rename_i hnewer
      by_contra hdiffers
      exact hadopts ⟨hd, hs, hnewer, hdiffers⟩
    · rfl

/-- The attachments follow the winner exactly if the two comparisons agree, where no slot in use is emptied. -/
theorem attachments_follow_winner (hl : Linked localDb) (hr : Linked remote)
    (h : reconcile env localDb remote = .ok (merged, delta)) (undisturbed : Undisturbed env localDb remote)
    (parts : AllPart env localDb remote) :
    FollowsWinner env localDb remote merged ↔ Agree env localDb remote := by
  have merged_linked := reconcile_linked hl hr h
  constructor
  · intro claim id d s hstays hd hs
    have hlive := (live_merged_iff hl hr h id).2 hstays
    obtain ⟨m, hm⟩ := (mem_entries merged).1 ((live_iff merged_linked).1 hlive)
    have hlocal := (live_iff hl).2 ((mem_entries localDb).2 ⟨d, hd⟩)
    have hremote := (live_iff hr).2 ((mem_entries remote).2 ⟨s, hs⟩)
    have hbytes := (claim id m d hlive hm hlocal hd).1 s hremote hs
    rw [bytesOf_both hl hr h undisturbed parts hm hd hs] at hbytes
    by_cases hwins : RemoteWins (env.now .entriesInBoth id) d.toVersion s.toVersion
    · rw [if_pos hwins] at hbytes
      by_cases hnewer : timeLe s.times.lastModification d.times.lastModification = false
      · exact .inl (iff_of_true hwins hnewer)
      · rw [if_neg hnewer] at hbytes
        exact .inr hbytes
    · rw [if_neg hwins] at hbytes
      by_cases hnewer : timeLe s.times.lastModification d.times.lastModification = false
      · rw [if_pos hnewer] at hbytes
        exact .inr hbytes.symm
      · exact .inl (iff_of_false hwins hnewer)
  · intro agree id m d hlive hm _ hd
    refine ⟨fun s _ hs => ?_, fun hremote => ?_⟩
    · rw [bytesOf_both hl hr h undisturbed parts hm hd hs]
      rcases agree id d s ((live_merged_iff hl hr h id).1 hlive) hd hs with hiff | hsame
      · exact if_congr hiff.symm rfl rfl
      · rw [hsame, ite_self, ite_self]
    · refine (reconcile_attached hl hr h undisturbed).kept id d m hd hm fun ⟨s, hadopts⟩ => ?_
      have := hadopts.there
      rw [(notLive_iff hr).1 hremote] at this; cases this

/-! ## Two inputs -/

/-- An entry with a title, a modification time and an attachment in slot `0`, and nothing else. -/
def filed (title : String) (time : Option NaiveDateTime) : Entry :=
  { titled title 0 with times := { lastModification := time }, attachments := Finmap.singleton "file" 0 }

/-- A database that holds it. -/
def filing (title : String) (time : Option NaiveDateTime) (data : Bytes) : Database :=
  { single (filed title time) with attachments := onePool data 5 }

/-- What a `reconcile` at `1000` makes of two such databases if the remote attachment is taken over. -/
def taken (current old : Entry) (data : Bytes) : Database :=
  { single { current with
      times := { current.times with lastModification := some 1000 }
      attachments := Finmap.singleton "file" 1
      history := some [old.toVersion] } with
    attachments := Finmap.singleton 1 { id := 1, entries := {(5, none)}, data := .unprotected data } }

theorem entry_filing {title : String} {time : Option NaiveDateTime} {data : Bytes} {id : EntryId} {e : Entry}
    (h : (filing title time data).entry id = some e) : id = 5 ∧ e = filed title time := by
  obtain rfl : id = 5 := (Finmap.mem_singleton _ _ _).1 (Finmap.mem_of_lookup_eq_some h)
  have : (filing title time data).entry 5 = some (filed title time) := Finmap.lookup_singleton_eq
  rw [this, Option.some.injEq] at h
  exact ⟨rfl, h.symm⟩

/-- With no local time the local fields stay, as if changed now, and the remote attachment comes, as if never changed.
-/
theorem attachments_leave_winner :
    reconcile (Env.inOrder 1000) (filing "local" none [1]) (filing "remote" (some 20) [2]) =
      .ok (taken (filed "local" none) (filed "remote" (some 20)) [2], { modified := [5] }) ∧
    ¬ FollowsWinner (Env.inOrder 1000) (filing "local" none [1]) (filing "remote" (some 20) [2])
      (taken (filed "local" none) (filed "remote" (some 20)) [2]) := by
  refine ⟨by decide +kernel, fun claim => ?_⟩
  -- entry `5` is in the root group of all three
  have hbytes := (claim 5 _ (filed "local" none) ⟨0, _, .root, rfl, by decide⟩ Finmap.lookup_singleton_eq
    ⟨0, _, .root, rfl, by decide⟩ Finmap.lookup_singleton_eq).1 (filed "remote" (some 20)) ⟨0, _, .root, rfl, by decide⟩
    Finmap.lookup_singleton_eq
  revert hbytes
  decide +kernel

/-- The back-reference of an entry to its own slot. -/
theorem filing_undisturbed {env : Env} {remote : Database} {title : String} {time : Option NaiveDateTime}
    {data : Bytes} :
    Undisturbed env (filing title time data) remote := by
  intro y d c _ hd ⟨n, hc⟩
  obtain ⟨rfl, rfl⟩ := entry_filing hd
  obtain rfl : n = "file" := (Finmap.mem_singleton _ _ _).1 (Finmap.mem_of_lookup_eq_some hc)
  obtain rfl : 0 = c := by simpa [filed, Finmap.lookup_singleton_eq] using hc
  exact ⟨_, _, Finmap.lookup_singleton_eq, rfl, .inr ⟨(5, none), Finset.mem_singleton_self _, fun h => h.1 rfl⟩⟩

/-- Both have the one name. -/
theorem filing_allPart {env : Env} {title title' : String} {time time' : Option NaiveDateTime} {data data' : Bytes} :
    AllPart env (filing title time data) (filing title' time' data') := by
  intro id d s _ hadopts n n' c hn _ hgoes _
  obtain ⟨rfl, rfl⟩ := entry_filing hadopts.here
  obtain ⟨-, rfl⟩ := entry_filing hadopts.there
  obtain rfl : n = "file" := (Finmap.mem_singleton _ _ _).1 (Finmap.mem_of_lookup_eq_some hn)
  exact absurd ((Finmap.mem_singleton _ _ _).2 rfl) hgoes

theorem attachments_follow_winner_edited :
    FollowsWinner (Env.inOrder 1000) (filing "local" (some 10) [1]) (filing "remote" (some 20) [2])
      (taken (filed "remote" (some 20)) (filed "local" (some 10)) [2]) := by
  have run : reconcile (Env.inOrder 1000) (filing "local" (some 10) [1]) (filing "remote" (some 20) [2]) =
      .ok (taken (filed "remote" (some 20)) (filed "local" (some 10)) [2], { modified := [5] }) := by decide +kernel
  refine (attachments_follow_winner
    (CheckedLinks.linked (by decide +kernel)) (CheckedLinks.linked (by decide +kernel)) run
    filing_undisturbed filing_allPart).2 fun id d s _ hd hs => .inl ?_
  obtain ⟨rfl, rfl⟩ := entry_filing hd
  obtain ⟨-, rfl⟩ := entry_filing hs
  decide

end Falach
