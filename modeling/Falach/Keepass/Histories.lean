import Falach.Lib.PairUp
import Falach.Keepass.Merge
/-!
# What `merge_history` keeps

The versions of one second are merged by themselves: those of the two sides are paired up, the last of each history
first. So every dated version is kept, and one that both sides hold is kept twice unless it stands at the same place
on both.
-/

namespace Keepass

variable {dest source : List Version} {d s v : Version} {t : NaiveDateTime}

/-- The versions of time `t`, as the merge meets them. -/
def block (t : NaiveDateTime) (history : List Version) : List Version :=
  ((history.map Version.dated).filter fun v => v.time = t).reverse

def NewestFirst (history : List Version) : Prop := history.Pairwise fun a b => b.time ≤ a.time

instance (history : List Version) : Decidable (NewestFirst history) := inferInstanceAs (Decidable (history.Pairwise _))

theorem newestFirst_sorted (history : List Version) : NewestFirst (newestFirst history) := by
  unfold NewestFirst newestFirst
  rw [List.pairwise_reverse]
  exact List.pairwise_insertionSort _ _

theorem filter_newestFirst (t : NaiveDateTime) (history : List Version) :
    (newestFirst history).filter (fun v => v.time = t) = block t history := by
  unfold newestFirst block
  rw [List.filter_reverse, List.filter_insertionSort]
  intro a b ha hb
  rw [of_decide_eq_true ha, of_decide_eq_true hb]

theorem filter_eq_nil_of_newer (h : NewestFirst (d :: dest)) (hd : d.time < t) :
    (d :: dest).filter (fun v => v.time = t) = [] := by
  rw [List.filter_eq_nil_iff]
  intro x hx
  have : x.time ≤ d.time := by
    rcases List.mem_cons.1 hx with rfl | hx
    · exact le_rfl
    · exact (List.pairwise_cons.1 h).1 x hx
  simpa using (lt_of_le_of_lt this hd).ne

/-- The rounds up to the one that takes `d`, seen at time `t`. -/
theorem filter_takeDest (hd : NewestFirst (d :: dest)) (hs : NewestFirst source)
    (ih : ∀ source, NewestFirst source → (mergeNewestFirst dest source).filter (fun v => v.time = t) =
      pairUp haveEntriesDiverged (dest.filter fun v => v.time = t) (source.filter fun v => v.time = t)) :
    (takeDest d dest (mergeNewestFirst dest) source).filter (fun v => v.time = t) =
      pairUp haveEntriesDiverged ((d :: dest).filter fun v => v.time = t) (source.filter fun v => v.time = t) := by
  induction source with
  | nil => simp [takeDest]
  | cons s source ihs =>
    have hs' := (List.pairwise_cons.1 hs).2
    rw [takeDest]
    by_cases hgt : d.time > s.time
    · rw [if_pos hgt, List.filter_cons, ih _ hs]
      by_cases htime : d.time = t
      · rw [filter_eq_nil_of_newer hs (htime ▸ hgt)]
        simp [htime]
      · simp [htime]
    rw [if_neg hgt]
    by_cases hlt : s.time > d.time
    · rw [if_pos hlt, List.filter_cons, ihs hs']
      by_cases htime : s.time = t
      · rw [filter_eq_nil_of_newer hd (htime ▸ hlt)]
        simp [htime, pairUp]
      · simp [htime]
    rw [if_neg hlt]
    have htie : d.time = s.time := le_antisymm (not_lt.1 hgt) (not_lt.1 hlt)
    by_cases hdiv : haveEntriesDiverged d s
    · rw [if_pos hdiv, List.filter_cons, List.filter_cons, ih _ hs']
      by_cases htime : s.time = t
      · simp [htie, htime, pairUp, hdiv]
      · simp [htie, htime]
    · rw [if_neg hdiv, List.filter_cons, ih _ hs']
      by_cases htime : s.time = t
      · simp [htie, htime, pairUp, hdiv]
      · simp [htie, htime]

theorem filter_mergeNewestFirst (hd : NewestFirst dest) (hs : NewestFirst source) :
    (mergeNewestFirst dest source).filter (fun v => v.time = t) =
      pairUp haveEntriesDiverged (dest.filter fun v => v.time = t) (source.filter fun v => v.time = t) := by
  induction dest generalizing source with
  | nil => simp [mergeNewestFirst, pairUp]
  | cons d dest ih => exact filter_takeDest hd hs fun _ hs => ih (List.pairwise_cons.1 hd).2 hs

theorem mem_of_mem_mergeNewestFirst (hd : NewestFirst dest) (hs : NewestFirst source)
    (hv : v ∈ mergeNewestFirst dest source) : v ∈ dest ∨ v ∈ source := by
  have hv : v ∈ (mergeNewestFirst dest source).filter (fun w => w.time = v.time) := List.mem_filter.2 ⟨hv, by simp⟩
  rw [filter_mergeNewestFirst hd hs] at hv
  exact (mem_of_mem_pairUp hv).imp (fun h => (List.mem_filter.1 h).1) fun h => (List.mem_filter.1 h).1

theorem newestFirst_cons : NewestFirst (v :: source) ↔ (∀ w ∈ source, w.time ≤ v.time) ∧ NewestFirst source :=
  List.pairwise_cons

/-- Nothing in a history that begins with `d` is newer than a version at least as new as `d`. -/
theorem time_le_of_newestFirst (hd : NewestFirst (d :: dest)) (hle : d.time ≤ t) : ∀ w ∈ d :: dest, w.time ≤ t := by
  intro w hw
  rcases List.mem_cons.1 hw with rfl | hw
  · exact hle
  · exact ((newestFirst_cons.1 hd).1 w hw).trans hle

/-- The merge of two histories that are newest first is, too. -/
theorem newestFirst_mergeNewestFirst (hd : NewestFirst dest) (hs : NewestFirst source) :
    NewestFirst (mergeNewestFirst dest source) := by
  induction dest generalizing source with
  | nil => exact hs
  | cons d dest ihd =>
    obtain ⟨hnew, hdest⟩ := newestFirst_cons.1 hd
    induction source with
    | nil => exact hd
    | cons s source ihs =>
      obtain ⟨hsnew, hsource⟩ := newestFirst_cons.1 hs
      change NewestFirst (takeDest d dest (mergeNewestFirst dest) (s :: source))
      rw [takeDest]
      split
      · rename_i hgt
        refine newestFirst_cons.2 ⟨fun w hw => ?_, ihd hdest hs⟩
        rcases mem_of_mem_mergeNewestFirst hdest hs hw with hw | hw
        · exact hnew w hw
        · exact time_le_of_newestFirst hs hgt.le w hw
      split
      · rename_i hlt
        refine newestFirst_cons.2 ⟨fun w hw => ?_, ihs hsource⟩
        have hw : w ∈ mergeNewestFirst (d :: dest) source := hw
        rcases mem_of_mem_mergeNewestFirst hd hsource hw with hw | hw
        · exact time_le_of_newestFirst hd hlt.le w hw
        · exact hsnew w hw
      rename_i hgt hlt
      have htie : d.time = s.time := le_antisymm (not_lt.1 hgt) (not_lt.1 hlt)
      have behind : ∀ w ∈ mergeNewestFirst dest source, w.time ≤ s.time := by
        intro w hw
        rcases mem_of_mem_mergeNewestFirst hdest hsource hw with hw | hw
        · exact htie ▸ hnew w hw
        · exact hsnew w hw
      split
      · refine newestFirst_cons.2 ⟨fun w hw => ?_, newestFirst_cons.2 ⟨behind, ihd hdest hsource⟩⟩
        rcases List.mem_cons.1 hw with rfl | hw
        · exact htie.ge
        · exact (behind w hw).trans htie.ge
      · exact newestFirst_cons.2 ⟨fun w hw => (behind w hw).trans htie.ge, ihd hdest hsource⟩

theorem newestFirst_mergeHistory (dest source : List Version) : NewestFirst (mergeHistory dest source) :=
  newestFirst_mergeNewestFirst (newestFirst_sorted dest) (newestFirst_sorted source)

/-- The versions of one time, after the merge. -/
theorem filter_mergeHistory (t : NaiveDateTime) (dest source : List Version) :
    (mergeHistory dest source).filter (fun v => v.time = t) =
      pairUp haveEntriesDiverged (block t dest) (block t source) := by
  rw [mergeHistory, filter_mergeNewestFirst (newestFirst_sorted dest) (newestFirst_sorted source), filter_newestFirst,
    filter_newestFirst]

theorem mem_block {history : List Version} {w : Version} :
    w ∈ block t history ↔ ∃ v ∈ history, v.dated = w ∧ v.time = t := by
  simp only [block, List.mem_reverse, List.mem_filter, List.mem_map, decide_eq_true_eq]
  constructor
  · rintro ⟨⟨v, hv, rfl⟩, ht⟩; exact ⟨v, hv, rfl, ht⟩
  · rintro ⟨v, hv, rfl, ht⟩; exact ⟨⟨v, hv, rfl⟩, ht⟩

/-- Every dated version of the destination is kept. -/
theorem mem_mergeHistory_dest (hv : v ∈ dest) : v.dated ∈ mergeHistory dest source := by
  have hb : v.dated ∈ block v.time dest := mem_block.2 ⟨v, hv, rfl, rfl⟩
  have : v.dated ∈ (mergeHistory dest source).filter (fun w => w.time = v.time) := by
    rw [filter_mergeHistory]; exact mem_pairUp_left hb
  exact (List.mem_filter.1 this).1

/-- A dated version of the source is kept, or one of the destination with its time and its content. -/
theorem mem_mergeHistory_source (dest : List Version) (hv : v ∈ source) :
    ∃ w ∈ mergeHistory dest source, w.time = v.time ∧ ¬ haveEntriesDiverged w v.dated := by
  have hb : v.dated ∈ block v.time source := mem_block.2 ⟨v, hv, rfl, rfl⟩
  have kept := @mem_pairUp_right _ haveEntriesDiverged _ (block v.time dest) _ _ hb
  rcases kept with h | ⟨x, hx, hn⟩
  · rw [← filter_mergeHistory] at h
    exact ⟨v.dated, (List.mem_filter.1 h).1, rfl, not_not.2 rfl⟩
  · obtain ⟨x₀, hx₀, rfl, ht⟩ := mem_block.1 hx
    exact ⟨x₀.dated, mem_mergeHistory_dest hx₀, ht, hn⟩

/-- A merged history has the times of the two histories. -/
theorem mem_mergeHistory_time : (∃ w ∈ mergeHistory dest source, w.time = t) ↔ ∃ v ∈ dest ++ source, v.time = t := by
  constructor
  · rintro ⟨w, hw, rfl⟩
    have origin : ∀ {history : List Version}, w ∈ newestFirst history → ∃ v ∈ history, v.dated = w := by
      intro history hw
      unfold newestFirst at hw
      rw [List.mem_reverse, List.mem_insertionSort, List.mem_map] at hw
      exact hw
    rcases mem_of_mem_mergeNewestFirst (newestFirst_sorted dest) (newestFirst_sorted source) hw with hw | hw
    · obtain ⟨v, hv, rfl⟩ := origin hw
      exact ⟨v, List.mem_append_left _ hv, rfl⟩
    · obtain ⟨v, hv, rfl⟩ := origin hw
      exact ⟨v, List.mem_append_right _ hv, rfl⟩
  · rintro ⟨v, hv, rfl⟩
    rcases List.mem_append.1 hv with hv | hv
    · exact ⟨v.dated, mem_mergeHistory_dest hv, rfl⟩
    · obtain ⟨w, hw, ht, -⟩ := mem_mergeHistory_source dest hv
      exact ⟨w, hw, ht⟩

/-- A merged history has dated versions only. -/
theorem dated_of_mem_mergeHistory {w : Version} (hw : w ∈ mergeHistory dest source) :
    w.times.lastModification = some w.time := by
  have hw : w ∈ (mergeHistory dest source).filter (fun v => v.time = w.time) := List.mem_filter.2 ⟨hw, by simp⟩
  rw [filter_mergeHistory] at hw
  have stamped : ∀ {history : List Version}, w ∈ block w.time history → w.times.lastModification = some w.time := by
    intro history h
    obtain ⟨v, -, rfl, -⟩ := mem_block.1 h
    rfl
  exact (mem_of_mem_pairUp hw).elim stamped stamped

/-- A merged history has the times and contents of the two histories, dated. -/
theorem mem_mergeHistory_content {time : Option NaiveDateTime} {content : Version} :
    (∃ w ∈ mergeHistory dest source, w.times.lastModification = time ∧ w.contentOnly = content) ↔
      ∃ w ∈ (dest ++ source).map Version.dated, w.times.lastModification = time ∧ w.contentOnly = content := by
  simp only [List.mem_map, List.mem_append]
  constructor
  · rintro ⟨w, hw, ht, hc⟩
    have hb : w ∈ (mergeHistory dest source).filter (fun v => v.time = w.time) := List.mem_filter.2 ⟨hw, by simp⟩
    rw [filter_mergeHistory] at hb
    rcases mem_of_mem_pairUp hb with hb | hb
    · obtain ⟨v, hv, hvw, -⟩ := mem_block.1 hb
      exact ⟨w, ⟨v, .inl hv, hvw⟩, ht, hc⟩
    · obtain ⟨v, hv, hvw, -⟩ := mem_block.1 hb
      exact ⟨w, ⟨v, .inr hv, hvw⟩, ht, hc⟩
  · rintro ⟨_, ⟨v, hv | hv, rfl⟩, ht, hc⟩
    · exact ⟨_, mem_mergeHistory_dest hv, ht, hc⟩
    · obtain ⟨w, hw, hwt, hwc⟩ := mem_mergeHistory_source dest hv
      refine ⟨w, hw, ?_, (not_not.1 hwc).trans hc⟩
      rw [dated_of_mem_mergeHistory hw, hwt]; exact ht

/-- The newest version of two histories; of one time on both sides, that of the destination. -/
def newest (dest source : List Version) : Option Version :=
  match newestFirst dest, newestFirst source with
  | [], source => source.head?
  | d :: _, [] => some d
  | d :: _, s :: _ => if s.time > d.time then some s else some d

theorem head?_mergeHistory (dest source : List Version) : (mergeHistory dest source).head? = newest dest source := by
  unfold mergeHistory newest
  cases newestFirst dest with
  | nil => rfl
  | cons d dest =>
    cases newestFirst source with
    | nil => rfl
    | cons s source =>
      rw [mergeNewestFirst, takeDest]
      simp only
      by_cases hgt : d.time > s.time
      · rw [if_pos hgt, if_neg (not_lt.2 hgt.le)]; rfl
      rw [if_neg hgt]
      by_cases hlt : s.time > d.time
      · rw [if_pos hlt, if_pos hlt]; rfl
      · rw [if_neg hlt, if_neg hlt]; split <;> rfl

end Keepass
