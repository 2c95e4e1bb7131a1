import Falach.Sync.Newer
import Falach.Sync.Winners
/-!
# Two devices that take each other's copy

Each of two devices folds the copy of the other into its own. Of an entry both have, the newer version is current on
both then; of two versions of one time each keeps its own attachments.
-/

namespace Falach

open Keepass Database

variable {env env₁ env₂ : Env} {a b localDb remote r₁ r₂ : Database} {delta₁ delta₂ : EntryDelta}

/-- Every entry that both have is current with one value and one set of named bytes. -/
def Converges (a b r₁ r₂ : Database) : Prop :=
  ∀ id, Live a id → Live b id → ∃ m₁ m₂, Live r₁ id ∧ r₁.entry id = some m₁ ∧ Live r₂ id ∧ r₂.entry id = some m₂ ∧
    value m₁.toVersion = value m₂.toVersion ∧ bytesOf r₁ m₁.toVersion = bytesOf r₂ m₂.toVersion

/-- Two versions of one time have the same named bytes. -/
def TiesMatch (a b : Database) : Prop :=
  ∀ id d s, a.entry id = some d → b.entry id = some s → d.times.lastModification = s.times.lastModification →
    bytesOf a d.toVersion = bytesOf b s.toVersion

/-- Every entry has a modification time. -/
def Timed (db : Database) : Prop := ∀ id e, db.entry id = some e → e.times.lastModification ≠ none

/-- Without tombstones an entry on both sides stays. -/
theorem both_stay (hno : remote.deletedObjects = ∅) {id : EntryId} {d s : Entry} (hd : localDb.entry id = some d)
    (hs : remote.entry id = some s) : EntryStays env localDb remote id := by
  classical
  have present : decide (Joins env localDb remote s.parent) = true ↔ Joins env localDb remote s.parent :=
    decide_eq_true_iff
  refine ⟨_, .both hd hs present, ?_⟩
  rintro ⟨x, ⟨-, _, _, _, -, hdel, -⟩, -⟩
  rw [hno] at hdel; cases hdel

/-- The value of an entry that both have, after one takes the copy of the other. -/
theorem value_both (hl : Linked localDb) (hr : Linked remote) (h : reconcile env localDb remote = .ok (r₁, delta₁))
    {id : EntryId} {m d s : Entry} {dlm slm : NaiveDateTime} (hm : r₁.entry id = some m)
    (hd : localDb.entry id = some d)
    (hs : remote.entry id = some s) (hdlm : d.times.lastModification = some dlm)
    (hslm : s.times.lastModification = some slm) :
    value m.toVersion = value (if dlm < slm then s else d).toVersion :=
  congrArg Face.value (face_merged hl hr h hm hd hs hdlm hslm)

/-- Versions of one time that a `reconcile` does not refuse have one value. -/
theorem value_tie (hl : Linked localDb) (hr : Linked remote) (h : reconcile env localDb remote = .ok (r₁, delta₁))
    {id : EntryId} {d s : Entry} {time : NaiveDateTime} (hd : localDb.entry id = some d) (hs : remote.entry id = some s)
    (hdlm : d.times.lastModification = some time) (hslm : s.times.lastModification = some time) :
    value d.toVersion = value s.toVersion := by
  classical
  obtain ⟨stages⟩ := reconcile_stages h
  have same := (merge_outcome hl hr stages.merge_eq).tie id d s (decide (Joins env localDb remote s.parent)) hd hs
    decide_eq_true_iff (by rw [hdlm, hslm]; rfl)
  rw [← value_followed (decide (Joins env localDb remote s.parent)) d s]
  exact value_of_contentOnly (not_not.1 same)

/-- Where no slot in use is emptied, the two devices converge exactly if versions of one time have the same named
bytes. -/
theorem winners_converge (ha : Linked a) (hb : Linked b) (hta : Timed a) (htb : Timed b)
    (hna : a.deletedObjects = ∅) (hnb : b.deletedObjects = ∅)
    (h₁ : reconcile env₁ a b = .ok (r₁, delta₁)) (h₂ : reconcile env₂ b a = .ok (r₂, delta₂))
    (hu₁ : Undisturbed env₁ a b) (hu₂ : Undisturbed env₂ b a) (hp₁ : AllPart env₁ a b) (hp₂ : AllPart env₂ b a) :
    Converges a b r₁ r₂ ↔ TiesMatch a b := by
  have hr₁ := reconcile_linked ha hb h₁
  have hr₂ := reconcile_linked hb ha h₂
  -- the bytes on each side, the times being there
  have bytes : ∀ {id d s dlm slm m₁ m₂}, a.entry id = some d → b.entry id = some s →
      d.times.lastModification = some dlm → s.times.lastModification = some slm → r₁.entry id = some m₁ →
      r₂.entry id = some m₂ →
      bytesOf r₁ m₁.toVersion = (if slm ≤ dlm then bytesOf a d.toVersion else bytesOf b s.toVersion) ∧
        bytesOf r₂ m₂.toVersion = if dlm ≤ slm then bytesOf b s.toVersion else bytesOf a d.toVersion := by
    intro id d s dlm slm m₁ m₂ hd hs hdlm hslm hm₁ hm₂
    rw [bytesOf_both ha hb h₁ hu₁ hp₁ hm₁ hd hs, bytesOf_both hb ha h₂ hu₂ hp₂ hm₂ hs hd, hdlm, hslm]
    simp only [timeLe, decide_eq_false_iff_not, ite_not, and_self]
  have there : ∀ {id d s}, a.entry id = some d → b.entry id = some s → ∃ m₁ m₂, Live r₁ id ∧ r₁.entry id = some m₁ ∧
      Live r₂ id ∧ r₂.entry id = some m₂ := by
    intro id d s hd hs
    have hlive₁ := (live_merged_iff ha hb h₁ id).2 (both_stay hnb hd hs)
    have hlive₂ := (live_merged_iff hb ha h₂ id).2 (both_stay hna hs hd)
    obtain ⟨m₁, hm₁⟩ := (mem_entries r₁).1 ((live_iff hr₁).1 hlive₁)
    obtain ⟨m₂, hm₂⟩ := (mem_entries r₂).1 ((live_iff hr₂).1 hlive₂)
    exact ⟨m₁, m₂, hlive₁, hm₁, hlive₂, hm₂⟩
  constructor
  · intro converges id d s hd hs htie
    obtain ⟨dlm, hdlm⟩ := Option.ne_none_iff_exists'.1 (hta id d hd)
    have hslm := htie ▸ hdlm
    obtain ⟨m₁, m₂, -, hm₁, -, hm₂, -, hbytes⟩ := converges id ((live_iff ha).2 ((mem_entries a).2 ⟨d, hd⟩))
      ((live_iff hb).2 ((mem_entries b).2 ⟨s, hs⟩))
    obtain ⟨hb₁, hb₂⟩ := bytes hd hs hdlm hslm hm₁ hm₂
    rwa [hb₁, hb₂, if_pos le_rfl, if_pos le_rfl] at hbytes
  · intro ties id hlivea hliveb
    obtain ⟨d, hd⟩ := (mem_entries a).1 ((live_iff ha).1 hlivea)
    obtain ⟨s, hs⟩ := (mem_entries b).1 ((live_iff hb).1 hliveb)
    obtain ⟨dlm, hdlm⟩ := Option.ne_none_iff_exists'.1 (hta id d hd)
    obtain ⟨slm, hslm⟩ := Option.ne_none_iff_exists'.1 (htb id s hs)
    obtain ⟨m₁, m₂, hlive₁, hm₁, hlive₂, hm₂⟩ := there hd hs
    obtain ⟨hb₁, hb₂⟩ := bytes hd hs hdlm hslm hm₁ hm₂
    refine ⟨m₁, m₂, hlive₁, hm₁, hlive₂, hm₂, ?_, ?_⟩
    · rw [value_both ha hb h₁ hm₁ hd hs hdlm hslm, value_both hb ha h₂ hm₂ hs hd hslm hdlm]
      rcases lt_trichotomy dlm slm with hlt | rfl | hgt
      · rw [if_pos hlt, if_neg hlt.not_gt]
      · rw [if_neg (lt_irrefl dlm), if_neg (lt_irrefl dlm)]
        exact value_tie ha hb h₁ hd hs hdlm hslm
      · rw [if_neg hgt.not_gt, if_pos hgt]
    · rw [hb₁, hb₂]
      rcases lt_trichotomy dlm slm with hlt | rfl | hgt
      · rw [if_neg hlt.not_ge, if_pos hlt.le]
      · rw [if_pos le_rfl, if_pos le_rfl]
        exact ties id d s hd hs (hdlm.trans hslm.symm)
      · rw [if_pos hgt.le, if_neg hgt.not_ge]

/-! ## Two inputs -/

/-- The pools give both attachments the same number, so the two versions of one time look the same. -/
theorem ties_diverge :
    reconcile (Env.inOrder 1000) (filing "bank" (some 10) [1]) (filing "bank" (some 10) [2]) =
      .ok (filing "bank" (some 10) [1], {}) ∧
    reconcile (Env.inOrder 1000) (filing "bank" (some 10) [2]) (filing "bank" (some 10) [1]) =
      .ok (filing "bank" (some 10) [2], {}) ∧
    ¬ Converges (filing "bank" (some 10) [1]) (filing "bank" (some 10) [2]) (filing "bank" (some 10) [1])
      (filing "bank" (some 10) [2]) := by
  refine ⟨by decide +kernel, by decide +kernel, fun claim => ?_⟩
  obtain ⟨m₁, m₂, -, hm₁, -, hm₂, -, hbytes⟩ := claim 5 ⟨0, _, .root, rfl, by decide⟩ ⟨0, _, .root, rfl, by decide⟩
  obtain ⟨-, rfl⟩ := entry_filing hm₁
  obtain ⟨-, rfl⟩ := entry_filing hm₂
  revert hbytes
  decide +kernel

theorem filing_timed {title : String} {time : NaiveDateTime} {data : Bytes} :
    Timed (filing title (some time) data) := by
  intro id e he
  obtain ⟨-, rfl⟩ := entry_filing he
  exact Option.some_ne_none time

/-- The device with the older version takes the newer one, and the other keeps it. -/
theorem winners_converge_edited :
    Converges (filing "old" (some 10) [1]) (filing "new" (some 20) [2])
      (taken (filed "new" (some 20)) (filed "old" (some 10)) [2])
      { filing "new" (some 20) [2] with
        entries := Finmap.singleton 5 { filed "new"
          (some 20) with history := some [(filed "old" (some 10)).toVersion] } } := by
  have run₁ : reconcile (Env.inOrder 1000) (filing "old" (some 10) [1]) (filing "new" (some 20) [2]) =
      .ok (taken (filed "new" (some 20)) (filed "old" (some 10)) [2], { modified := [5] }) := by decide +kernel
  have run₂ : reconcile (Env.inOrder 1000) (filing "new" (some 20) [2]) (filing "old" (some 10) [1]) =
      .ok ({ filing "new" (some 20) [2] with
        entries := Finmap.singleton 5 { filed "new"
          (some 20) with history := some [(filed "old" (some 10)).toVersion] } },
        {}) := by decide +kernel
  refine (winners_converge (CheckedLinks.linked
    (by decide +kernel)) (CheckedLinks.linked (by decide +kernel)) filing_timed
    filing_timed rfl rfl run₁ run₂ filing_undisturbed filing_undisturbed filing_allPart filing_allPart).2 ?_
  intro id d s hd hs htie
  obtain ⟨-, rfl⟩ := entry_filing hd
  obtain ⟨-, rfl⟩ := entry_filing hs
  exact absurd htie (by decide)

end Falach
