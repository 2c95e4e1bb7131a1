import Falach.Sync.Attachments
import Falach.Sync.HistoryLoss
/-!
# Merged histories newest first

The merge sorts the two histories, and the current versions that lose go in front of them whatever their age. So the
merged history is newest first unless a version put in front is older than one behind it. No later pass dates an entry
back.
-/

namespace Falach

open Keepass Database

variable {env : Env} {db db' localDb remote merged : Database} {delta : EntryDelta} {d s e : Entry} {v w : Version}
  {present : Bool} {now t : NaiveDateTime} {id : EntryId}

/-! ## Modification times -/

/-- Dated entries stay, and are dated no earlier. -/
def Ages (db db' : Database) : Prop := ∀ id e t, db.entry id = some e → e.times.lastModification = some t →
  ∃ e' t', db'.entry id = some e' ∧ e'.times.lastModification = some t' ∧ t ≤ t'

namespace Ages

theorem refl (db : Database) : Ages db db := fun _ e t he ht => ⟨e, t, he, ht, le_rfl⟩

theorem trans {a b c : Database} (h : Ages a b) (h' : Ages b c) : Ages a c := by
  intro id e t he ht
  obtain ⟨e₁, t₁, he₁, ht₁, hle⟩ := h id e t he ht
  obtain ⟨e₂, t₂, he₂, ht₂, hle'⟩ := h' id e₁ t₁ he₁ ht₁
  exact ⟨e₂, t₂, he₂, ht₂, hle.trans hle'⟩

/-- One entry is rewritten, and dated as before. -/
theorem one {m : HashMap String AttachmentId} (he : db.entry id = some e)
    (he' : db'.entry id = some { e with attachments := m }) (others : ∀ x, x ≠ id → db'.entry x = db.entry x) :
    Ages db db' := by
  intro x y t hy ht
  by_cases hx : x = id
  · subst hx
    obtain rfl := Option.some.inj (he.symm.trans hy)
    exact ⟨_, t, he', ht, le_rfl⟩
  · exact ⟨y, t, (others x hx).trans hy, ht, le_rfl⟩

theorem addAttachment {name : String} {data : Value Bytes} (h : db.addAttachment id name data = .ok db') :
    Ages db db' := by
  obtain ⟨e, m, he, he', others, -⟩ := addAttachment_ok h
  exact .one he he' others

theorem removeAttachmentByName {name : String} (h : db.removeAttachmentByName id name = .ok db') : Ages db db' := by
  obtain ⟨e, m, he, he', others, -⟩ := removeAttachmentByName_ok h
  exact .one he he' others

theorem addAll {attachments : List (String × Value Bytes)} (h : addAll db id attachments = .ok db') : Ages db db' :=
  Loop.foldlM_rel Ages .refl .trans (fun _ _ _ _ h => .addAttachment h) h

theorem bump (db : Database) (id : EntryId) (now : NaiveDateTime) : Ages db (bump db id now) := by
  intro x e t he ht
  by_cases hx : x = id
  · subst hx
    refine ⟨_, advance now (some t), by
      rw [Falach.bump, entry_modifyEntry, if_pos rfl, he, Option.map_some, ht], rfl, ?_⟩
    unfold advance
    dsimp only
    split
    · exact (Int.lt_succ t).le
    · exact (Int.lt_succ t).le.trans (not_lt.1 ‹_›)
  · exact ⟨e, t, by rw [Falach.bump, entry_modifyEntry, if_neg hx, he], ht, le_rfl⟩

theorem repairAdded {localPre : List Entry} {pre : Entry} (h : repairAdded env remote localPre db pre = .ok db') :
    Ages db db' := by
  unfold Falach.repairAdded at h
  split at h
  · rw [← Loop.pure_ok.1 h]; exact .refl db
  split at h
  · rw [← Loop.pure_ok.1 h]; exact .refl db
  obtain ⟨attachments, -, h⟩ := Loop.bind_ok.1 h
  split at h
  · rw [← Loop.pure_ok.1 h]; exact .refl db
  split at h
  · rw [← Loop.pure_ok.1 h]; exact .refl db
  obtain ⟨t, ht, h⟩ := Loop.bind_ok.1 h
  rw [← Loop.pure_ok.1 h]
  exact (Ages.addAll ht).trans (.bump t _ _)

theorem adoptAttachments {m : Entry} (h : adoptAttachments env remote s m db id = .ok db') : Ages db db' := by
  simp only [Falach.adoptAttachments, Loop.bind_ok] at h
  obtain ⟨wanted, -, held, -, h⟩ := h
  split at h
  · rw [← Loop.pure_ok.1 h]; exact .refl db
  obtain ⟨t₁, ht₁, h⟩ := Loop.bind_ok.1 h
  obtain ⟨t₂, ht₂, h⟩ := Loop.bind_ok.1 h
  have removed : Ages db t₁ := Loop.foldlM_rel Ages .refl .trans (fun _ _ _ _ h => .removeAttachmentByName h) ht₁
  rw [← Loop.pure_ok.1 h]
  exact (removed.trans (.addAll ht₂)).trans (.bump t₂ id _)

theorem propagate {localPre : List Entry} {pre : Entry} (h : propagate env remote localPre db pre = .ok db') :
    Ages db db' := by
  unfold Falach.propagate at h
  split at h
  · rw [← Loop.pure_ok.1 h]; exact .refl db
  split at h
  · rw [← Loop.pure_ok.1 h]; exact .refl db
  split at h
  · exact .adoptAttachments h
  · rw [← Loop.pure_ok.1 h]; exact .refl db

theorem passes (stages : Stages env localDb remote merged delta) : Ages stages.backfilled merged :=
  (Loop.foldlM_rel Ages .refl .trans (fun _ _ _ _ h => .repairAdded h) stages.repair_eq).trans
    (Loop.foldlM_rel Ages .refl .trans (fun _ _ _ _ h => .propagate h) stages.propagate_eq)

end Ages

/-! ## One entry -/

/-- The losing current versions that go in front of a merged history are newest first, and no old version on either side
is newer than one of them. -/
def FrontInOrder (present : Bool) (now : NaiveDateTime) (d s : Entry) : Prop :=
  NewestFirst (pushed present now d s) ∧ ∀ v ∈ pushed present now d s, ∀ w ∈ versions d ++ versions s, w.time ≤ v.time

instance (present : Bool) (now : NaiveDateTime) (d s : Entry) : Decidable (FrontInOrder present now d s) :=
  inferInstanceAs (Decidable (_ ∧ _))

theorem recovered_mem {current pre : Version} {history : List Version} (h : v ∈ recovered current pre history) :
    v = pre := by
  unfold recovered at h
  split at h
  · exact List.mem_singleton.1 h
  · cases h

theorem time_pushed (h : v ∈ pushed present now d s) : v.time = d.time ∨ v.time = s.time := by
  unfold pushed at h
  rcases List.mem_append.1 h with h | h
  · exact .inr (recovered_mem h ▸ rfl)
  rcases List.mem_append.1 h with h | h
  · exact .inl (recovered_mem h ▸ rfl)
  refine .inl ?_
  unfold overtaken at h
  have moved : ∀ {v : Version}, v ∈ [(followed present d s).toVersion] → v.time = d.time := by
    intro v hv
    rw [List.mem_singleton.1 hv, Version.time, followed_lastModification]; rfl
  split at h
  · split at h
    · cases h
    · split at h
      · exact moved h
      · cases h
  · cases h

variable {td ts : NaiveDateTime}

/-- The merge dates an entry as its newer side. -/
theorem lastModification_settled (hd : d.times.lastModification = some td) (hs : s.times.lastModification = some ts) :
    (settled present now d s).times.lastModification = some (max td ts) := by
  unfold settled
  simp only [followed_lastModification, hd, hs, Option.getD_some]
  by_cases htie : td = ts
  · rw [if_pos htie, followed_lastModification, hd, htie, max_self]
  · rw [if_neg htie]
    unfold mergedEntry
    dsimp only
    by_cases hnewer : ts > td
    · rw [if_pos hnewer]
      change s.times.lastModification = _
      rw [hs, max_eq_right hnewer.le]
    · rw [if_neg hnewer]
      change (followed present d s).times.lastModification = _
      rw [followed_lastModification, hd, max_eq_left (not_lt.1 hnewer)]

/-- Behind the front are the times of the old versions, unless the sides tie. -/
theorem mergedVersions_inOrder (hd : InOrder d) : NewestFirst (mergedVersions now d s) := by
  unfold mergedVersions
  split
  · exact (newestFirst_cons.1 hd).2
  · exact newestFirst_mergeHistory _ _

theorem time_mergedVersions (hw : w ∈ mergedVersions now d s) : ∃ x ∈ versions d ++ versions s, x.time = w.time := by
  unfold mergedVersions at hw
  split at hw
  · exact ⟨w, List.mem_append_left _ hw, rfl⟩
  · exact mem_mergeHistory_time.1 ⟨w, hw, rfl⟩

theorem inOrder_merged_iff {m : Entry} (hd : InOrder d) (hs : InOrder s) (hdt : d.times.lastModification = some td)
    (hst : s.times.lastModification = some ts) (hv : versions m = pushed present now d s ++ mergedVersions now d s)
    (hm : max td ts ≤ m.time) : InOrder m ↔ FrontInOrder present now d s := by
  have dtime : d.time = td := by rw [Version.time, hdt]; rfl
  have stime : s.time = ts := by rw [Version.time, hst]; rfl
  have dold := (newestFirst_cons.1 hd).1
  have sold := (newestFirst_cons.1 hs).1
  unfold InOrder FrontInOrder
  rw [newestFirst_cons, hv]
  constructor
  · rintro ⟨-, hsorted⟩
    obtain ⟨hfront, -, hbehind⟩ := List.pairwise_append.1 hsorted
    refine ⟨hfront, fun v hvp x hx => ?_⟩
    by_cases htie : d.times.lastModification.getD now = s.times.lastModification.getD Times.epoch
    · -- nothing of the remote history is taken over, but it is no newer than the remote entry, which ties
      have tie : d.time = s.time := by
        rw [hdt, hst] at htie
        rw [dtime, stime]; exact htie
      have hvt : v.time = d.time := (time_pushed hvp).elim id fun h => h.trans tie.symm
      rw [hvt]
      rcases List.mem_append.1 hx with hx | hx
      · exact dold x hx
      · exact tie ▸ sold x hx
    · obtain ⟨w, hw, ht⟩ := mem_mergeHistory_time.2 ⟨x, hx, rfl⟩
      have merged : mergedVersions now d s = mergeHistory (versions d) (versions s) := if_neg htie
      rw [← ht]
      exact hbehind v hvp w (merged ▸ hw)
  · rintro ⟨hfront, hbehind⟩
    have old : ∀ x ∈ versions d ++ versions s, x.time ≤ max td ts := by
      intro x hx
      rcases List.mem_append.1 hx with hx | hx
      · exact (dtime ▸ dold x hx).trans (le_max_left _ _)
      · exact (stime ▸ sold x hx).trans (le_max_right _ _)
    refine ⟨fun w hw => ?_, List.pairwise_append.2 ⟨hfront, mergedVersions_inOrder hd, fun v hvp w hw => ?_⟩⟩
    · rcases List.mem_append.1 hw with hw | hw
      · rcases time_pushed hw with ht | ht
        · rw [ht, dtime]; exact (le_max_left _ _).trans hm
        · rw [ht, stime]; exact (le_max_right _ _).trans hm
      · obtain ⟨x, hx, ht⟩ := time_mergedVersions hw
        rw [← ht]; exact (old x hx).trans hm
    · obtain ⟨x, hx, ht⟩ := time_mergedVersions hw
      rw [← ht]; exact hbehind v hvp x hx

/-! ## Every entry -/

/-- A merged entry is dated no earlier than what the merge made of it. -/
theorem settled_time (hl : Linked localDb) (hr : Linked remote) (h : reconcile env localDb remote = .ok (merged, delta))
    {m : Entry} (hm : merged.entry id = some m) : ∃ e, Settles env localDb remote id e ∧
      ∀ t, e.times.lastModification = some t → t ≤ m.time := by
  obtain ⟨stages⟩ := reconcile_stages h
  obtain ⟨b, hb, -⟩ := stages.entry_backfilled hm
  obtain ⟨e, he, hversion, -⟩ := stages.backfilled_grows.entry id b hb
  refine ⟨e, (((merge_outcome hl hr stages.merge_eq).entry id e).1 he).1, fun t ht => ?_⟩
  obtain ⟨m', t', hm', ht', hle⟩ := Ages.passes stages id b t hb (by rw [hversion]; exact ht)
  obtain rfl := Option.some.inj (hm.symm.trans hm')
  rw [Version.time, ht']
  exact hle

/-- A database whose entries are dated and have their histories in order. -/
def HistoriesInOrder (db : Database) : Prop :=
  ∀ id e, db.entry id = some e → InOrder e ∧ e.times.lastModification ≠ none

/-- An entry of one side only keeps its history, and gets no earlier date. -/
theorem InOrder.later {m : Entry} (h : InOrder e) (hdated : e.times.lastModification ≠ none)
    (hv : versions m = versions e) (htime : ∀ t, e.times.lastModification = some t → t ≤ m.time) : InOrder m := by
  obtain ⟨t, ht⟩ := Option.ne_none_iff_exists'.1 hdated
  have hle : e.time ≤ m.time := by
    rw [Version.time, ht]
    exact htime t ht
  obtain ⟨hnew, hsorted⟩ := newestFirst_cons.1 h
  exact newestFirst_cons.2 ⟨fun w hw => (hnew w (hv ▸ hw)).trans hle, hv ▸ hsorted⟩

/-- All merged histories are newest first with nothing newer than the current value, exactly if that is so of what the
merge puts in front of each. -/
theorem histories_inOrder_iff (hl : Linked localDb) (hr : Linked remote)
    (h : reconcile env localDb remote = .ok (merged, delta)) (hlocal : HistoriesInOrder localDb)
    (hremote : HistoriesInOrder remote) :
    (∀ id m, merged.entry id = some m → InOrder m) ↔
    ∀ id d s, ∀ present : Bool, EntryStays env localDb remote id → localDb.entry id = some d →
      remote.entry id = some s →
      (present = true ↔ Joins env localDb remote s.parent) → FrontInOrder present (env.now .entriesInBoth id) d s := by
  have both : ∀ id m d s, merged.entry id = some m → localDb.entry id = some d → remote.entry id = some s →
      ∀ present : Bool, (present = true ↔ Joins env localDb remote s.parent) →
        (InOrder m ↔ FrontInOrder present (env.now .entriesInBoth id) d s) := by
    intro id m d s hm hd hs present hp
    obtain ⟨present', hp', hv⟩ := (versions_merged hl hr h hm).2.2 d s hd hs
    obtain rfl : present' = present := Bool.eq_iff_iff.2 (hp'.trans hp.symm)
    obtain ⟨td, hdt⟩ := Option.ne_none_iff_exists'.1 (hlocal id d hd).2
    obtain ⟨ts, hst⟩ := Option.ne_none_iff_exists'.1 (hremote id s hs).2
    obtain ⟨e, hsettles, htime⟩ := settled_time hl hr h hm
    refine inOrder_merged_iff (hlocal id d hd).1 (hremote id s hs).1 hdt hst hv (htime _ ?_)
    cases hsettles with
    | added hnone _ _ _ => rw [hd] at hnone; cases hnone
    | kept _ hnone _ => rw [hs] at hnone; cases hnone
    | both hd' hs' _ =>
      rw [hd, Option.some.injEq] at hd'
      rw [hs, Option.some.injEq] at hs'
      subst hd' hs'
      exact lastModification_settled hdt hst
  constructor
  · intro claim id d s present hstays hd hs hp
    have hlive := (live_merged_iff hl hr h id).2 hstays
    obtain ⟨m, hm⟩ := (mem_entries merged).1 ((live_iff (reconcile_linked hl hr h)).1 hlive)
    exact (both id m d s hm hd hs present hp).1 (claim id m hm)
  · intro cond id m hm
    have hlive := (live_iff (reconcile_linked hl hr h)).2 ((mem_entries merged).2 ⟨m, hm⟩)
    have hstays := (live_merged_iff hl hr h id).1 hlive
    obtain ⟨honly, hadded, -⟩ := versions_merged hl hr h hm
    obtain ⟨e, hsettles, htime⟩ := settled_time hl hr h hm
    cases hsettles with
    | added hd hs _ _ => exact (hremote id _ hs).1.later (hremote id _ hs).2 (hadded _ hd hs) htime
    | kept hd hs _ => exact (hlocal id _ hd).1.later (hlocal id _ hd).2 (honly _ hd hs) htime
    | both hd hs hp => exact (both id m _ _ hm hd hs _ hp).2 (cond id _ _ _ hstays hd hs hp)

/-! A local edit between two remote ones, and before one. -/

def withVersions (e : Entry) (history : List Entry) : Database :=
  single { e with history := some (history.map (·.toVersion)) }

def editedHere : Database := withVersions (titled "local" 20) [titled "base" 10]
def editedTwice : Database := withVersions (titled "remote" 30) [titled "draft" 25, titled "base" 10]
def editedOn : Database := withVersions (titled "remote" 30) [titled "local" 20, titled "base" 10]
def mergedTwice : Database := withVersions (titled "remote" 30) [titled "local" 20, titled "draft" 25, titled "base" 10]

theorem withVersions_inOrder {e : Entry} {history : List Entry} (h : NewestFirst ((e :: history).map (·.toVersion)))
    (hdated : e.times.lastModification ≠ none) : HistoriesInOrder (withVersions e history) := by
  intro id x hx
  obtain ⟨-, rfl⟩ := entry_single_some hx
  exact ⟨h, hdated⟩

/-- The local version of 20 goes in front of the remote one of 25. -/
theorem loser_before_newer : ¬ ∀ env localDb remote merged delta, Linked localDb → Linked remote →
    HistoriesInOrder localDb → HistoriesInOrder remote → reconcile env localDb remote = .ok (merged, delta) →
    ∀ id m, merged.entry id = some m → InOrder m := by
  intro claim
  have run : reconcile (Env.inOrder 1000) editedHere editedTwice = .ok (mergedTwice, { modified := [5] }) := by
    decide +kernel
  have linked : Linked editedHere ∧ Linked editedTwice :=
    ⟨CheckedLinks.linked (by decide +kernel), CheckedLinks.linked (by decide +kernel)⟩
  have ordered := claim _ _ _ _ _ linked.1 linked.2 (withVersions_inOrder (by decide +kernel) (by decide))
    (withVersions_inOrder (by decide +kernel) (by decide)) run 5 _ Finmap.lookup_singleton_eq
  exact absurd ordered (by decide +kernel)

theorem histories_inOrder_iff_edited :
    reconcile (Env.inOrder 1000) editedHere editedOn = .ok (editedOn, { modified := [5] }) ∧
      ∀ id m, editedOn.entry id = some m → InOrder m := by
  have run : reconcile (Env.inOrder 1000) editedHere editedOn = .ok (editedOn, { modified := [5] }) := by decide +kernel
  refine ⟨run, (histories_inOrder_iff
    (CheckedLinks.linked (by decide +kernel)) (CheckedLinks.linked (by decide +kernel)) run
    (withVersions_inOrder (by decide +kernel) (by decide)) (withVersions_inOrder (by decide +kernel) (by decide))).2
    ?_⟩
  intro id d s present _ hd hs _
  obtain ⟨rfl, rfl⟩ := entry_single_some hd
  obtain ⟨-, rfl⟩ := entry_single_some hs
  cases present <;> decide +kernel

end Falach
