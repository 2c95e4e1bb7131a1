import Falach.Core.Crud
import Falach.Sync.HistoryLoss
/-!
# The newer side

A newer remote version replaces the local one part by part, and of its times only the modification time is among the
parts: the expiration of the merged entry is the local one, whichever side is newer.
-/

namespace Falach

open Keepass Database

variable {env : Env} {localDb remote merged : Database} {delta : EntryDelta} {d s : Entry} {present : Bool}
  {now dlm slm : NaiveDateTime}

/-- What a user sees of a version: its value, and the expiration as `set_expiration` writes it. -/
structure Face where
  value : Version
  expires : Option Bool
  expiry : Option NaiveDateTime
deriving DecidableEq

def face (v : Version) : Face := ⟨value v, v.times.expires, v.times.expiry⟩

theorem followed_expiration (present : Bool) (d s : Entry) : (followed present d s).times.expires = d.times.expires ∧
    (followed present d s).times.expiry = d.times.expiry := by
  unfold followed
  split
  · split <;> exact ⟨rfl, rfl⟩
  · exact ⟨rfl, rfl⟩

/-- No branch of the merge writes the expiration. -/
theorem settled_expiration (present : Bool) (now : NaiveDateTime) (d s : Entry) :
    (settled present now d s).times.expires = d.times.expires ∧ (settled present now d s).times.expiry =
      d.times.expiry := by
  obtain ⟨hexpires, hexpiry⟩ := followed_expiration present d s
  rw [← hexpires, ← hexpiry]
  unfold settled
  dsimp only
  split
  · exact ⟨rfl, rfl⟩
  · unfold mergedEntry
    dsimp only
    split <;> exact ⟨rfl, rfl⟩

theorem value_followed (present : Bool) (d s : Entry) : value (followed present d s).toVersion = value d.toVersion := by
  unfold followed
  split
  · split <;> rfl
  · rfl

/-- The value of the merge is that of the newer side. -/
theorem value_settled (hid : d.id = s.id) (hdlm : d.times.lastModification = some dlm)
    (hslm : s.times.lastModification = some slm) :
    value (settled present now d s).toVersion = value (if dlm < slm then s else d).toVersion := by
  rw [value_of_contentOnly (contentOnly_settled present now d s)]
  unfold winner
  rw [hdlm, hslm, Option.getD_some, Option.getD_some]
  by_cases hnewer : dlm < slm
  · rw [if_pos hnewer, if_pos hnewer]
    have hid' : (followed present d s).id = s.id := by
      rw [← hid]
      exact congrArg (·.id) (value_followed present d s)
    simp only [value, Version.contentOnly, replaceFields, hid']
  · rw [if_neg hnewer, if_neg hnewer]
    exact value_followed present d s

/-- What a user sees of an entry on both sides after the merge. -/
theorem face_merged (hl : Linked localDb) (hr : Linked remote) (h : reconcile env localDb remote = .ok (merged, delta))
    {id : EntryId} {m : Entry} (hm : merged.entry id = some m) (hd : localDb.entry id = some d)
    (hs : remote.entry id = some s) (hdlm : d.times.lastModification = some dlm)
    (hslm : s.times.lastModification = some slm) :
    face m.toVersion = ⟨value (if dlm < slm then s else d).toVersion, d.times.expires, d.times.expiry⟩ := by
  obtain ⟨present, -, hf⟩ := fixedPart_merged hl hr h hm hd hs
  have hid : d.id = s.id := (hl.entry_id hd).trans (hr.entry_id hs).symm
  obtain ⟨hexpires, hexpiry⟩ := settled_expiration present (env.now .entriesInBoth id) d s
  -- the backfill leaves the current version alone
  have hcurrent : (backfilledWith s (backfilledWith d (settled present (env.now .entriesInBoth id) d s))).toVersion =
      (settled present (env.now .entriesInBoth id) d s).toVersion := by
    rw [toVersion_backfilledWith, toVersion_backfilledWith]
  have htimes := congrArg (fun e : Entry => (e.times.expires, e.times.expiry)) hf
  simp only [fixedPart, hcurrent, Prod.mk.injEq] at htimes
  rw [face, (value_of_fixedPart hf).1, hcurrent, value_settled hid hdlm hslm, htimes.1, htimes.2, hexpires, hexpiry]

/-- The newer side wins whole exactly if no newer remote entry has another expiration than the local one. -/
theorem newer_wins_whole_iff (hl : Linked localDb) (hr : Linked remote)
    (h : reconcile env localDb remote = .ok (merged, delta)) :
    (∀ id m d s dlm slm, Live merged id → merged.entry id = some m → localDb.entry id = some d →
      remote.entry id = some s → d.times.lastModification = some dlm → s.times.lastModification = some slm →
      dlm ≠ slm → face m.toVersion = face (if dlm < slm then s else d).toVersion) ↔
    ∀ id d s dlm slm, EntryStays env localDb remote id → localDb.entry id = some d → remote.entry id = some s →
      d.times.lastModification = some dlm → s.times.lastModification = some slm → dlm < slm →
      d.times.expires = s.times.expires ∧ d.times.expiry = s.times.expiry := by
  have merged_linked := reconcile_linked hl hr h
  constructor
  · intro claim id d s dlm slm hstays hd hs hdlm hslm hnewer
    have hlive := (live_merged_iff hl hr h id).2 hstays
    obtain ⟨m, hm⟩ := (mem_entries merged).1 ((live_iff merged_linked).1 hlive)
    have hface := claim id m d s dlm slm hlive hm hd hs hdlm hslm hnewer.ne
    rw [face_merged hl hr h hm hd hs hdlm hslm, if_pos hnewer] at hface
    exact ⟨congrArg Face.expires hface, congrArg Face.expiry hface⟩
  · intro cond id m d s dlm slm hlive hm hd hs hdlm hslm hne
    rw [face_merged hl hr h hm hd hs hdlm hslm]
    by_cases hnewer : dlm < slm
    · obtain ⟨hexpires, hexpiry⟩ := cond id d s dlm slm ((live_merged_iff hl hr h id).1 hlive) hd hs hdlm hslm hnewer
      rw [if_pos hnewer, face, hexpires, hexpiry]
    · rw [if_neg hnewer, face]

/-- The remote copy of an entry whose expiration was set there at `20`. -/
def expiring : Entry :=
  { titled "bank" 20 with times := { lastModification := some 20, expires := some true, expiry := some 500 } }

/-- The expiration set on the other device does not arrive. -/
theorem expiration_does_not_arrive :
    setExpiration (single (titled "bank" 10)) 5 500 20 = .ok (single expiring) ∧
    reconcile (Env.inOrder 1000) (single (titled "bank" 10)) (single expiring) =
      .ok (single (titled "bank" 20), { modified := [5] }) ∧
    ¬ (∀ id m d s dlm slm, Live (single (titled "bank" 20)) id → (single (titled "bank" 20)).entry id = some m →
      (single (titled "bank" 10)).entry id = some d → (single expiring).entry id = some s →
      d.times.lastModification = some dlm → s.times.lastModification = some slm →
      dlm ≠ slm → face m.toVersion = face (if dlm < slm then s else d).toVersion) := by
  refine ⟨by decide +kernel, by decide +kernel, fun claim => ?_⟩
  have hface := claim 5 _ _ _ 10 20 (single_live _) Finmap.lookup_singleton_eq Finmap.lookup_singleton_eq
    Finmap.lookup_singleton_eq rfl rfl (by decide)
  exact absurd (congrArg Face.expires hface) (by decide)

theorem newer_wins_whole_iff_edited :
    (∀ id m d s dlm slm, Live (single (titled "bank" 20)) id → (single (titled "bank" 20)).entry id = some m →
      (single (titled "bank" 10)).entry id = some d → (single expiring).entry id = some s →
      d.times.lastModification = some dlm → s.times.lastModification = some slm →
      dlm ≠ slm → face m.toVersion = face (if dlm < slm then s else d).toVersion) ↔
    ∀ id d s dlm slm, EntryStays (Env.inOrder 1000) (single (titled "bank" 10)) (single expiring) id →
      (single (titled "bank" 10)).entry id = some d → (single expiring).entry id = some s →
      d.times.lastModification = some dlm → s.times.lastModification = some slm → dlm < slm →
      d.times.expires = s.times.expires ∧ d.times.expiry = s.times.expiry := by
  have run : reconcile (Env.inOrder 1000) (single (titled "bank" 10)) (single expiring) =
      .ok (single (titled "bank" 20), { modified := [5] }) := by decide +kernel
  exact newer_wins_whole_iff (CheckedLinks.linked (by decide +kernel)) (CheckedLinks.linked (by decide +kernel)) run

end Falach
