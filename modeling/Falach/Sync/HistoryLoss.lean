import Falach.Core.Crud
import Falach.Sync.Survival
/-!
# What becomes of old versions

The merged history of an entry on both sides is what the merge makes of the two histories, behind the current versions
that the merge and the backfill put in front. When the modification times tie, the merge leaves the local history as
it is.
-/

namespace Falach

open Keepass Database

variable {env : Env} {db localDb remote merged : Database} {delta : EntryDelta} {d s e : Entry} {v w : Version}
  {present : Bool} {now : NaiveDateTime}

/-- A version up to its times and to the ids of its attachments. -/
def upToIds (v : Version) : Version := { v.contentOnly with attachments := v.attachments.mapVals fun _ => 0 }

/-- One modification time, and one content up to attachment ids. -/
def sameVersion (v w : Version) : Bool :=
  decide (v.times.lastModification = w.times.lastModification ∧ upToIds v = upToIds w)

theorem sameVersion_iff : sameVersion v w = true ↔
    v.times.lastModification = w.times.lastModification ∧ upToIds v = upToIds w := by
  simp [sameVersion]

/-! ## The backfill, entry by entry -/

/-- What the backfill puts in front of a history for the earlier version `pre`. -/
def recovered (current pre : Version) (history : List Version) : List Version :=
  if haveEntriesDiverged current pre ∧ historyHasVersion (some history) pre = false then [pre] else []

/-- The entry after a backfill of `pre`. -/
def backfilledWith (pre e : Entry) : Entry :=
  if haveEntriesDiverged e.toVersion pre.toVersion ∧ historyHasVersion e.history pre.toVersion = false then
    { e with history := some (pre.toVersion :: e.history.getD []) }
  else e

theorem historyHasVersion_getD (history : Option (List Version)) (v : Version) :
    historyHasVersion history v = historyHasVersion (some (history.getD [])) v := by
  cases history <;> rfl

theorem versions_backfilledWith (pre e : Entry) :
    versions (backfilledWith pre e) = recovered e.toVersion pre.toVersion (versions e) ++ versions e := by
  unfold versions backfilledWith recovered
  rw [historyHasVersion_getD]
  split <;> rfl

theorem toVersion_backfilledWith (pre e : Entry) : (backfilledWith pre e).toVersion = e.toVersion := by
  unfold backfilledWith; split <;> rfl

theorem backfilledWith_self (e : Entry) : backfilledWith e e = e := if_neg fun h => h.1 rfl

/-- Once is enough. -/
theorem backfilledWith_idem (pre e : Entry) : backfilledWith pre (backfilledWith pre e) = backfilledWith pre e := by
  by_cases h : haveEntriesDiverged e.toVersion pre.toVersion ∧ historyHasVersion e.history pre.toVersion = false
  · have hstep : backfilledWith pre e = { e with history := some (pre.toVersion :: e.history.getD []) } := if_pos h
    rw [hstep]
    refine if_neg fun hagain => ?_
    have : historyHasVersion (some (pre.toVersion :: e.history.getD [])) pre.toVersion = true :=
      historyHasVersion_iff.2 ⟨pre.toVersion, List.mem_cons_self, rfl, rfl⟩
    exact absurd hagain.2 (by rw [this]; decide)
  · have hstep : backfilledWith pre e = e := if_neg h
    rw [hstep, hstep]

theorem entry_backfill (db : Database) (pre : Entry) (id : EntryId) :
    (backfill db pre).entry id = if id = pre.id then (db.entry id).map (backfilledWith pre) else db.entry id := by
  unfold backfill
  cases hm : db.entry pre.id with
  | none =>
    simp only
    split
    · subst_vars; rw [hm]; rfl
    · rfl
  | some m =>
    simp only
    by_cases hid : id = pre.id
    · subst hid
      rw [if_pos rfl, hm, Option.map_some, backfilledWith]
      split
      · rw [entry_modifyEntry, if_pos rfl, hm]; rfl
      · exact hm
    · rw [if_neg hid]
      split
      · rw [entry_modifyEntry, if_neg hid]
      · rfl

/-- What a backfill makes of the entry `id`, if all its earlier versions of that UUID are one. -/
theorem entry_backfillLostVersions {pres : List Entry} {id : EntryId} {pre : Entry}
    (hone : ∀ x ∈ pres, x.id = id → x = pre)
    (hid : pre.id = id) (db : Database) :
    (backfillLostVersions db pres).entry id = if pre ∈ pres then (db.entry id).map (backfilledWith pre)
      else db.entry id := by
  induction pres generalizing db with
  | nil => rfl
  | cons x pres ih =>
    have ih := ih (fun y hy => hone y (List.mem_cons_of_mem x hy)) (backfill db x)
    change (backfillLostVersions (backfill db x) pres).entry id = _
    rw [ih, entry_backfill]
    by_cases hx : x = pre
    · subst hx
      rw [if_pos hid.symm, if_pos List.mem_cons_self, Option.map_map]
      split
      · exact Option.map_congr fun e _ => backfilledWith_idem x e
      · rfl
    · have hxid : id ≠ x.id := fun h => hx (hone x List.mem_cons_self h.symm)
      rw [if_neg hxid]
      simp only [List.mem_cons, Ne.symm hx, false_or]

/-- What the walk of one side collects for the UUID, and nothing else, is backfilled. -/
theorem entry_backfillLostVersions_of_walk {side : Database} (hl : Linked side) {site : Site} {pres : List Entry}
    (hw : collectLiveEntries env site side = .ok pres) (id : EntryId) (db : Database) :
    (backfillLostVersions db pres).entry id =
      match side.entry id with
      | some pre => (db.entry id).map (backfilledWith pre)
      | none => db.entry id := by
  have own : ∀ x ∈ pres, side.entry x.id = some x := fun x => (mem_collectLiveEntries hl hw).1
  cases hs : side.entry id with
  | some pre =>
    have hid := hl.entry_id hs
    have hone : ∀ x ∈ pres, x.id = id → x = pre := by
      intro x hx hxid
      have := own x hx
      rw [hxid, hs, Option.some.injEq] at this; exact this.symm
    rw [entry_backfillLostVersions hone hid, if_pos ((mem_collectLiveEntries hl hw).2 (hid ▸ hs))]
  | none =>
    have hnone : ∀ x ∈ pres, x.id ≠ id := by
      rintro x hx rfl
      rw [own x hx] at hs; cases hs
    clear hw own
    induction pres generalizing db with
    | nil => rfl
    | cons x pres ih =>
      have hx := hnone x List.mem_cons_self
      change (backfillLostVersions (backfill db x) pres).entry id = _
      rw [ih _ (fun y hy => hnone y (List.mem_cons_of_mem x hy)), entry_backfill, if_neg (Ne.symm hx)]

/-! ## The history of a merged entry -/

/-- The old versions the merge takes over, as it dates them. -/
def known (now : NaiveDateTime) (d s : Entry) : List Version :=
  if d.times.lastModification.getD now = s.times.lastModification.getD Times.epoch then versions d
  else (versions d ++ versions s).map Version.dated

/-- The losing local version that the merge itself puts in front. -/
def overtaken (present : Bool) (now : NaiveDateTime) (d s : Entry) : List Version :=
  if s.times.lastModification.getD Times.epoch > d.times.lastModification.getD now then
    match newest (versions d) (versions s) with
    | none => []
    | some v => if haveEntriesDiverged (followed present d s).toVersion v then [(followed present d s).toVersion]
        else []
  else []

/-- The version that is current after the merge, up to its times. -/
def winner (present : Bool) (now : NaiveDateTime) (d s : Entry) : Version :=
  if s.times.lastModification.getD Times.epoch > d.times.lastModification.getD now then
    (replaceFields (followed present d s) s.toVersion).toVersion
  else (followed present d s).toVersion

/-- The current versions put in front of the histories of an entry on both sides: the local one if the merge says so,
then either one that is not current after it and not in the history already. -/
def pushed (present : Bool) (now : NaiveDateTime) (d s : Entry) : List Version :=
  let front := overtaken present now d s
  let front := recovered (winner present now d s) d.toVersion (front ++ known now d s) ++ front
  recovered (winner present now d s) s.toVersion (front ++ known now d s) ++ front

/-- The old versions behind them. -/
def mergedVersions (now : NaiveDateTime) (d s : Entry) : List Version :=
  if d.times.lastModification.getD now = s.times.lastModification.getD Times.epoch then versions d
  else mergeHistory (versions d) (versions s)

theorem followed_history (present : Bool) (d s : Entry) : (followed present d s).history = d.history := by
  unfold followed
  split
  · split <;> rfl
  · rfl

theorem versions_settled (present : Bool) (now : NaiveDateTime) (d s : Entry) :
    versions (settled present now d s) = overtaken present now d s ++ mergedVersions now d s := by
  unfold settled overtaken mergedVersions
  simp only [followed_lastModification]
  by_cases htie : d.times.lastModification.getD now = s.times.lastModification.getD Times.epoch
  · rw [if_pos htie, if_pos htie, htie, if_neg (lt_irrefl _), List.nil_append, versions, followed_history]
    rfl
  · rw [if_neg htie, if_neg htie]
    unfold mergedEntry
    simp only [followed_history]
    by_cases hnewer : s.times.lastModification.getD Times.epoch > d.times.lastModification.getD now
    · simp only [if_pos hnewer, versions, Option.getD_some, ← head?_mergeHistory]
      unfold keepLoser
      cases hM : mergeHistory (d.history.getD []) (s.history.getD []) with
      | nil => rfl
      | cons newest rest =>
        simp only [List.head?_cons]
        split <;> rfl
    · simp only [if_neg hnewer, versions, Option.getD_some, List.nil_append]

theorem contentOnly_settled (present : Bool) (now : NaiveDateTime) (d s : Entry) :
    (settled present now d s).contentOnly = (winner present now d s).contentOnly := by
  unfold settled winner
  simp only [followed_lastModification]
  split
  · rename_i htie
    rw [if_neg (by rw [htie]; exact lt_irrefl _)]
  · unfold mergedEntry
    simp only
    split <;> rfl

/-- The merged history and the two it is made of hold the same times and contents. -/
theorem historyHasVersion_merged (front : List Version) (now : NaiveDateTime) (d s : Entry) (v : Version) :
    historyHasVersion (some (front ++ mergedVersions now d s)) v =
      historyHasVersion (some (front ++ known now d s)) v := by
  rw [Bool.eq_iff_iff, historyHasVersion_iff, historyHasVersion_iff]
  simp only [Option.getD_some, List.mem_append, or_and_right, exists_or]
  refine or_congr .rfl ?_
  unfold mergedVersions known
  split
  · rfl
  · exact mem_mergeHistory_content

theorem recovered_congr {a a' pre : Version} {history history' : List Version} (ha : a.contentOnly = a'.contentOnly)
    (hh : historyHasVersion (some history) pre = historyHasVersion (some history') pre) :
    recovered a pre history = recovered a' pre history' := by
  have hdiv : haveEntriesDiverged a pre ↔ haveEntriesDiverged a' pre := by unfold haveEntriesDiverged; rw [ha]
  exact if_congr (and_congr hdiv (by rw [hh])) rfl rfl

/-- The history of an entry on both sides after the merge and both backfills. -/
theorem versions_backfilled (present : Bool) (now : NaiveDateTime) (d s : Entry) :
    versions (backfilledWith s (backfilledWith d (settled present now d s))) =
      pushed present now d s ++ mergedVersions now d s := by
  rw [versions_backfilledWith, toVersion_backfilledWith, versions_backfilledWith, versions_settled]
  have hcontent := contentOnly_settled present now d s
  have hfirst := recovered_congr hcontent (historyHasVersion_merged (overtaken present now d s) now d s d.toVersion)
  have hsecond := recovered_congr hcontent (historyHasVersion_merged
    (recovered (winner present now d s) d.toVersion (overtaken present now d s ++ known now d s) ++
      overtaken present now d s) now d s s.toVersion)
  simp only [List.append_assoc] at hfirst hsecond ⊢
  rw [hfirst, hsecond]
  simp only [pushed, List.append_assoc]

/-- What becomes of an entry on both sides, up to what the attachment passes write. -/
theorem fixedPart_merged (hl : Linked localDb) (hr : Linked remote)
    (h : reconcile env localDb remote = .ok (merged, delta))
    {id : EntryId} {m : Entry} (hm : merged.entry id = some m) (hd : localDb.entry id = some d)
    (hs : remote.entry id = some s) : ∃ present : Bool, (present = true ↔ Joins env localDb remote s.parent) ∧
      fixedPart m = fixedPart (backfilledWith s
        (backfilledWith d (settled present (env.now .entriesInBoth id) d s))) := by
  obtain ⟨stages⟩ := reconcile_stages h
  obtain ⟨b, hb, hf⟩ := stages.entry_backfilled hm
  unfold Stages.backfilled at hb
  rw [entry_backfillLostVersions_of_walk hr stages.remotePre_eq,
    entry_backfillLostVersions_of_walk hl stages.localPre_eq] at hb
  simp only [hd, hs] at hb
  rw [Option.map_map] at hb
  obtain ⟨e, he, rfl⟩ := Option.map_eq_some_iff.1 hb
  have hsettles := (((merge_outcome hl hr stages.merge_eq).entry id e).1 he).1
  cases hsettles with
  | added h _ _ _ => rw [hd] at h; cases h
  | kept _ h _ => rw [hs] at h; cases h
  | both h h' hp =>
    rw [hd, Option.some.injEq] at h; subst h
    rw [hs, Option.some.injEq] at h'; subst h'
    exact ⟨_, hp, hf⟩

/-- The history of a merged entry: of one side alone it is unchanged. -/
theorem versions_merged (hl : Linked localDb) (hr : Linked remote)
    (h : reconcile env localDb remote = .ok (merged, delta))
    {id : EntryId} {m : Entry} (hm : merged.entry id = some m) :
    (∀ d, localDb.entry id = some d → remote.entry id = none → versions m = versions d) ∧
    (∀ s, localDb.entry id = none → remote.entry id = some s → versions m = versions s) ∧
    ∀ d s, localDb.entry id = some d → remote.entry id = some s → ∃ present : Bool,
      (present = true ↔ Joins env localDb remote s.parent) ∧
      versions m = pushed present (env.now .entriesInBoth id) d s ++
        mergedVersions (env.now .entriesInBoth id) d s := by
  have both : ∀ d s, localDb.entry id = some d → remote.entry id = some s → ∃ present : Bool,
      (present = true ↔ Joins env localDb remote s.parent) ∧
      versions m = pushed present (env.now .entriesInBoth id) d s ++
        mergedVersions (env.now .entriesInBoth id) d s := by
    intro d s hd hs
    obtain ⟨present, hp, hf⟩ := fixedPart_merged hl hr h hm hd hs
    refine ⟨present, hp, ?_⟩
    rw [← versions_backfilled, versions, (value_of_fixedPart hf).2]
    rfl
  obtain ⟨stages⟩ := reconcile_stages h
  obtain ⟨b, hb, hf⟩ := stages.entry_backfilled hm
  have hhist : versions m = versions b := by
    unfold versions; rw [(value_of_fixedPart hf).2]
  rw [hhist]
  unfold Stages.backfilled at hb
  rw [entry_backfillLostVersions_of_walk hr stages.remotePre_eq,
    entry_backfillLostVersions_of_walk hl stages.localPre_eq] at hb
  have outcome := merge_outcome hl hr stages.merge_eq
  refine ⟨fun d hd hs => ?_, fun s hd hs => ?_, fun d s hd hs => hhist ▸ both d s hd hs⟩
  · simp only [hd, hs] at hb
    obtain ⟨e, he, rfl⟩ := Option.map_eq_some_iff.1 hb
    have hsettles := ((outcome.entry id e).1 he).1
    cases hsettles with
    | added h _ _ _ => rw [hd] at h; cases h
    | kept h _ _ =>
      rw [hd, Option.some.injEq] at h; subst h
      rw [backfilledWith_self]
    | both _ h _ => rw [hs] at h; cases h
  · simp only [hd, hs] at hb
    obtain ⟨e, he, rfl⟩ := Option.map_eq_some_iff.1 hb
    have hsettles := ((outcome.entry id e).1 he).1
    cases hsettles with
    | added _ h _ _ =>
      rw [hs, Option.some.injEq] at h; subst h
      rw [backfilledWith_self]
    | kept h _ _ => rw [hd] at h; cases h
    | both h _ _ => rw [hd] at h; cases h

/-! ## No old version is lost, and none held once on each side is there twice -/

/-- How often the versions hold `v`. -/
def copies (history : List Version) (v : Version) : Nat := history.countP (sameVersion v)

/-- How often a version like `v` is left out because the one at the same place of the other history, of the same
time, has the same content. -/
def paired (d s : Entry) (v : Version) : Nat :=
  ((block v.time (versions d)).zip (block v.time (versions s))).countP fun z =>
    !decide (haveEntriesDiverged z.1 z.2) && sameVersion v z.2

/-- The condition for the histories of an entry on both sides to be united. -/
structure Unites (present : Bool) (now : NaiveDateTime) (d s : Entry) : Prop where
  -- the two modification times tie: the remote history is not read
  tied : d.times.lastModification.getD now = s.times.lastModification.getD Times.epoch →
    (∀ v ∈ versions s, ∃ w ∈ pushed present now d s ++ versions d, sameVersion v w) ∧
    ∀ v, copies (versions d) v = 1 → copies (versions s) v = 1 → copies (pushed present now d s) v = 0
  -- they differ: undated versions come out dated
  untied : d.times.lastModification.getD now ≠ s.times.lastModification.getD Times.epoch →
    (∀ v ∈ versions d ++ versions s, v.times.lastModification = none → ∃ w ∈ pushed present now d s, sameVersion v w) ∧
    ∀ v, copies (versions d) v = 1 → copies (versions s) v = 1 → copies (pushed present now d s) v +
      copies ((versions d).map Version.dated) v + copies ((versions s).map Version.dated) v ≤ 1 + paired d s v

/-- `m` has every old version of both, and none twice that both have once. -/
def United (m d s : Entry) : Prop :=
  (∀ v ∈ versions d ++ versions s, ∃ w ∈ versions m, sameVersion v w) ∧
  ∀ v, copies (versions d) v = 1 → copies (versions s) v = 1 → copies (versions m) v ≤ 1

theorem sameVersion_refl (v : Version) : sameVersion v v = true := sameVersion_iff.2 ⟨rfl, rfl⟩

theorem upToIds_of_contentOnly {v w : Version} (h : v.contentOnly = w.contentOnly) : upToIds v = upToIds w := by
  have ha : v.attachments = w.attachments := congrArg (·.attachments) h
  unfold upToIds
  rw [h, ha]

theorem sameVersion_dated (h : v.times.lastModification ≠ none) : sameVersion v v.dated = true := by
  obtain ⟨t, ht⟩ := Option.ne_none_iff_exists'.1 h
  exact sameVersion_iff.2 ⟨by simp [Version.dated, ht], rfl⟩

/-- A version of the source is in the merged history, once it is dated. -/
theorem mem_mergeHistory_sameVersion {dest source : List Version} (hv : v ∈ dest ++ source)
    (h : v.times.lastModification ≠ none) : ∃ w ∈ mergeHistory dest source, sameVersion v w := by
  rcases List.mem_append.1 hv with hv | hv
  · exact ⟨_, mem_mergeHistory_dest hv, sameVersion_dated h⟩
  · obtain ⟨w, hw, ht, hc⟩ := mem_mergeHistory_source dest hv
    refine ⟨w, hw, sameVersion_iff.2 ⟨?_, upToIds_of_contentOnly (not_not.1 hc).symm⟩⟩
    obtain ⟨t, hvt⟩ := Option.ne_none_iff_exists'.1 h
    rw [dated_of_mem_mergeHistory hw, ht, Version.time, hvt]; rfl

theorem copies_append (xs ys : List Version) (v : Version) : copies (xs ++ ys) v = copies xs v + copies ys v :=
  List.countP_append

/-- Of the dated versions, what is not left out is in the merged history. -/
theorem copies_mergeHistory (d s : Entry) (v : Version) :
    copies (mergeHistory (versions d) (versions s)) v + paired d s v =
      copies ((versions d).map Version.dated) v + copies ((versions s).map Version.dated) v := by
  have at_time : ∀ history : List Version, (∀ w ∈ history, w.times.lastModification = some w.time) →
      copies history v = (history.filter fun w => w.time = v.time).countP (sameVersion v) := by
    intro history hdated
    rw [copies, List.countP_filter]
    refine List.countP_congr fun w hw => ?_
    simp only [Bool.and_eq_true, decide_eq_true_eq]
    refine ⟨fun h => ⟨h, ?_⟩, fun h => h.1⟩
    rw [Version.time, Version.time, (sameVersion_iff.1 h).1]
  have dated : ∀ history : List Version, ∀ w ∈ history.map Version.dated, w.times.lastModification = some w.time := by
    intro history w hw
    obtain ⟨x, -, rfl⟩ := List.mem_map.1 hw
    rfl
  rw [at_time _ fun w hw => dated_of_mem_mergeHistory hw, at_time _ (dated _), at_time _ (dated _), filter_mergeHistory]
  have := @countP_pairUp _ haveEntriesDiverged _ (sameVersion v) (block v.time (versions d)) (block v.time (versions s))
  simp only [block, List.countP_reverse] at this ⊢
  exact this

/-- The condition says when the merged history unites the two. -/
theorem united_iff {m : Entry}
    (hm : versions m = pushed present now d s ++ mergedVersions now d s) : United m d s ↔ Unites present now d s := by
  unfold United
  rw [hm]
  -- on a tie the destination keeps its versions, else the two histories are merged by date
  by_cases htie : d.times.lastModification.getD now = s.times.lastModification.getD Times.epoch
  · have hmerged : mergedVersions now d s = versions d := if_pos htie
    rw [hmerged]
    constructor
    · rintro ⟨hall, hone⟩
      refine ⟨fun _ => ⟨fun v hv => hall v (List.mem_append_right _ hv), fun v hd hs => ?_⟩, fun h => absurd htie h⟩
      have := hone v hd hs
      rw [copies_append] at this
      omega
    · intro unites
      obtain ⟨hall, hone⟩ := unites.tied htie
      refine ⟨fun v hv => ?_, fun v hd hs => ?_⟩
      · rcases List.mem_append.1 hv with hv | hv
        · exact ⟨v, List.mem_append_right _ hv, sameVersion_refl v⟩
        · exact hall v hv
      · rw [copies_append, hone v hd hs, hd]
  · have hmerged : mergedVersions now d s = mergeHistory (versions d) (versions s) := if_neg htie
    rw [hmerged]
    constructor
    · rintro ⟨hall, hone⟩
      refine ⟨fun h => absurd h htie, fun _ => ⟨fun v hv hnone => ?_, fun v hd hs => ?_⟩⟩
      · obtain ⟨w, hw, hvw⟩ := hall v hv
        rcases List.mem_append.1 hw with hw | hw
        · exact ⟨w, hw, hvw⟩
        · -- the merged history is dated
          have := (sameVersion_iff.1 hvw).1
          rw [hnone, dated_of_mem_mergeHistory hw] at this
          cases this
      · have := hone v hd hs
        have hcount := copies_mergeHistory d s v
        rw [copies_append] at this
        omega
    · intro unites
      obtain ⟨hall, hone⟩ := unites.untied htie
      refine ⟨fun v hv => ?_, fun v hd hs => ?_⟩
      · by_cases hnone : v.times.lastModification = none
        · obtain ⟨w, hw, hvw⟩ := hall v hv hnone
          exact ⟨w, List.mem_append_left _ hw, hvw⟩
        · obtain ⟨w, hw, hvw⟩ := mem_mergeHistory_sameVersion hv hnone
          exact ⟨w, List.mem_append_right _ hw, hvw⟩
      · have := hone v hd hs
        have hcount := copies_mergeHistory d s v
        rw [copies_append]
        omega

/-- Every old version of either side is an old version of the merged entry, and none twice that both sides held once,
exactly if the condition holds of every entry on both sides that stays. -/
theorem histories_united_iff (hl : Linked localDb) (hr : Linked remote)
    (h : reconcile env localDb remote = .ok (merged, delta)) :
    (∀ id m, Live merged id → merged.entry id = some m →
      (∀ side ∈ [localDb, remote], ∀ e, side.entry id = some e → ∀ v ∈ versions e, ∃ w ∈ versions m, sameVersion v w) ∧
      ∀ d s, localDb.entry id = some d → remote.entry id = some s →
        ∀ v, copies (versions d) v = 1 → copies (versions s) v = 1 → copies (versions m) v ≤ 1) ↔
    ∀ id d s, ∀ present : Bool, EntryStays env localDb remote id → localDb.entry id = some d →
      remote.entry id = some s →
      (present = true ↔ Joins env localDb remote s.parent) → Unites present (env.now .entriesInBoth id) d s := by
  have merged_linked := reconcile_linked hl hr h
  constructor
  · intro claim id d s present hstays hd hs hp
    have hlive := (live_merged_iff hl hr h id).2 hstays
    obtain ⟨m, hm⟩ := (mem_entries merged).1 ((live_iff merged_linked).1 hlive)
    obtain ⟨hall, hone⟩ := claim id m hlive hm
    obtain ⟨-, -, hboth⟩ := versions_merged hl hr h hm
    obtain ⟨present', hp', hv⟩ := hboth d s hd hs
    obtain rfl : present' = present := Bool.eq_iff_iff.2 (hp'.trans hp.symm)
    refine (united_iff hv).1 ⟨fun v hv => ?_, hone d s hd hs⟩
    rcases List.mem_append.1 hv with hv | hv
    · exact hall localDb List.mem_cons_self d hd v hv
    · exact hall remote (List.mem_cons_of_mem _ List.mem_cons_self) s hs v hv
  · intro cond id m hlive hm
    obtain ⟨hlocal, hremote, hboth⟩ := versions_merged hl hr h hm
    have united : ∀ d s, localDb.entry id = some d → remote.entry id = some s → United m d s := by
      intro d s hd hs
      obtain ⟨present, hp, hv⟩ := hboth d s hd hs
      exact (united_iff hv).2 (cond id d s present ((live_merged_iff hl hr h id).1 hlive) hd hs hp)
    refine ⟨fun side hside e he v hv => ?_, fun d s hd hs => (united d s hd hs).2⟩
    rcases List.mem_pair.1 hside with rfl | rfl
    · cases hs : remote.entry id with
      | none => exact ⟨v, by rw [hlocal e he hs]; exact hv, sameVersion_refl v⟩
      | some s => exact (united e s he hs).1 v (List.mem_append_left _ hv)
    · cases hd : localDb.entry id with
      | none => exact ⟨v, by rw [hremote e hd he]; exact hv, sameVersion_refl v⟩
      | some d => exact (united d e hd he).1 v (List.mem_append_right _ hv)

/-- The same current value on both sides, of one time; only the remote has an old version. -/
def withOld : Database := single { titled "new" 20 with history := some [(titled "old" 10).toVersion] }

/-- The tie is settled before the histories are looked at. -/
theorem tie_drops_history : reconcile (Env.inOrder 1000) (single (titled "new" 20)) withOld =
      .ok (single (titled "new" 20), {}) ∧
    ¬ (∀ id m, Live (single (titled "new" 20)) id → (single (titled "new" 20)).entry id = some m →
      (∀ side ∈ [single (titled "new" 20), withOld], ∀ e, side.entry id = some e → ∀ v ∈ versions e,
        ∃ w ∈ versions m, sameVersion v w) ∧
      ∀ d s, (single (titled "new" 20)).entry id = some d → withOld.entry id = some s →
        ∀ v, copies (versions d) v = 1 → copies (versions s) v = 1 → copies (versions m) v ≤ 1) := by
  refine ⟨by decide +kernel, fun claim => ?_⟩
  obtain ⟨w, hw, -⟩ := (claim 5 (titled "new" 20) (single_live _) Finmap.lookup_singleton_eq).1 withOld
    (List.mem_cons_of_mem _ List.mem_cons_self) _ Finmap.lookup_singleton_eq
      (titled "old" 10).toVersion List.mem_cons_self
  cases hw

theorem histories_united_iff_tie :
    (∀ id m, Live (single (titled "new" 20)) id → (single (titled "new" 20)).entry id = some m →
      (∀ side ∈ [single (titled "new" 20), withOld], ∀ e, side.entry id = some e → ∀ v ∈ versions e,
        ∃ w ∈ versions m, sameVersion v w) ∧
      ∀ d s, (single (titled "new" 20)).entry id = some d → withOld.entry id = some s →
        ∀ v, copies (versions d) v = 1 → copies (versions s) v = 1 → copies (versions m) v ≤ 1) ↔
    ∀ id d s, ∀ present : Bool, EntryStays (Env.inOrder 1000) (single (titled "new" 20)) withOld id →
      (single (titled "new" 20)).entry id = some d → withOld.entry id = some s →
      (present = true ↔ Joins (Env.inOrder 1000) (single (titled "new" 20)) withOld s.parent) →
        Unites present ((Env.inOrder 1000).now .entriesInBoth id) d s := by
  have run : reconcile (Env.inOrder 1000) (single (titled "new" 20)) withOld = .ok (single (titled "new" 20), {}) := by
    decide +kernel
  exact histories_united_iff (CheckedLinks.linked (by decide +kernel)) (CheckedLinks.linked (by decide +kernel)) run

end Falach
