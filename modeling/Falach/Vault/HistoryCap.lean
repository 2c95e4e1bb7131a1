import Falach.Vault.TreeFormed
/-!
# The history cap

An update makes room in the history it writes to. A move of an entry, also into the recycle bin, writes to the history
and makes no room, and a lowered cap leaves the histories as long as they are.
-/

namespace Falach

open Keepass Database

variable {db db' : Database} {call : VaultCall} {r : Except VaultError Unit} {e e' : Entry} {id : EntryId} {n : Nat}

/-- The cap allows a history of `n` versions. -/
def HistoryCap.Allows : HistoryCap → Nat → Prop
  | .unlimited, _ => True
  | .disabled, n => n = 0
  | .max limit, n => n ≤ limit

def Capped (db : Database) : Prop := ∀ id e, db.entry id = some e → (historyCap db).Allows (versions e).length

/-- From the history, with the current version in front if the call put it there, only the oldest versions went. -/
def DropsOldest (e e' : Entry) : Prop :=
  ∃ recorded dropped, (recorded = [] ∨ recorded = [e.toVersion]) ∧ recorded ++ versions e = versions e' ++ dropped ∧
    ∀ v ∈ dropped, ∀ w ∈ versions e', v.time ≤ w.time

/-- A move finds room in the history, a new cap is not below a history, and the history an update shortens ends with its
oldest version. -/
structure VaultCall.FindsRoom (db : Database) (call : VaultCall) : Prop where
  room : ∀ id e, call.Relocates db id → db.entry id = some e → (historyCap db).Allows ((versions e).length + 1)
  fits : ∀ n, call = .setMaxHistoryPerEntry n → n < 2 ^ 63 → ∀ id e, db.entry id = some e → (versions e).length ≤ n
  oldest : ∀ id e, call.Updates id → db.entry id = some e → historyCap db = .max (versions e).length →
    ∀ last ∈ (versions e).getLast?, ∀ v ∈ e.toVersion :: versions e, last.time ≤ v.time

theorem HistoryCap.Allows.mono {cap : HistoryCap} {m : Nat} (h : cap.Allows n) (hm : m ≤ n) : cap.Allows m := by
  cases cap with
  | unlimited => trivial
  | disabled => exact Nat.le_zero.1 (hm.trans_eq h)
  | max max => exact hm.trans h

theorem HistoryCap.allows_zero (cap : HistoryCap) : cap.Allows 0 := by
  cases cap with
  | unlimited => trivial
  | disabled => rfl
  | max max => exact Nat.zero_le max

/-! ## One update -/

theorem versions_recordHistory_max (e : Entry) :
    versions (recordHistory (.max n) e) = (e.toVersion :: versions e).take n := by
  change versions (pruneHistory (addHistory e e.toVersion) n) = _
  unfold pruneHistory addHistory
  dsimp only
  split
  · rfl
  · rename_i hshort
    exact (List.take_of_length_le (Nat.le_of_not_lt hshort)).symm

theorem recordHistory_allows {cap : HistoryCap} (h : cap.Allows (versions e).length) :
    cap.Allows (versions (recordHistory cap e)).length := by
  cases cap with
  | unlimited => trivial
  | disabled => exact h
  | max max => rw [versions_recordHistory_max]; exact List.length_take_le max _

/-- The last of a list behind one more element. -/
theorem mem_drop_length {α : Type} {a v : α} {l : List α} (h : v ∈ (a :: l).drop l.length) :
    (l = [] ∧ v = a) ∨ v ∈ l.getLast? := by
  cases l using List.reverseRecOn with
  | nil => exact .inl ⟨rfl, by simpa using h⟩
  | append_singleton l b =>
    refine .inr ?_
    rw [List.length_append, List.length_singleton, List.drop_succ_cons, List.drop_left, List.mem_singleton] at h
    simp [h]

/-- What an update drops from a history that was not too long. -/
theorem recordHistory_dropsOldest {cap : HistoryCap} (hcap : cap.Allows (versions e).length)
    (hlast : cap = .max (versions e).length →
      ∀ last ∈ (versions e).getLast?, ∀ v ∈ e.toVersion :: versions e, last.time ≤ v.time)
    (h : versions e' = versions (recordHistory cap e)) : DropsOldest e e' := by
  cases cap with
  | unlimited => exact ⟨[e.toVersion], [], .inr rfl, by rw [h, List.append_nil]; rfl, fun v hv => nomatch hv⟩
  | disabled => exact ⟨[], [], .inl rfl, by rw [h, List.append_nil]; rfl, fun v hv => nomatch hv⟩
  | max max =>
    rw [versions_recordHistory_max] at h
    refine ⟨[e.toVersion], (e.toVersion :: versions e).drop max, .inr rfl, ?_, fun v hv w hw => ?_⟩
    · rw [h, List.take_append_drop]; rfl
    · rcases Nat.lt_or_eq_of_le hcap with hlt | rfl
      · rw [List.drop_eq_nil_of_le hlt] at hv
        cases hv
      · rw [h] at hw
        rcases mem_drop_length hv with ⟨hnil, -⟩ | hv
        · rw [hnil, List.length_nil, List.take_zero] at hw
          cases hw
        · exact hlast rfl v hv w (List.mem_of_mem_take hw)

/-! ## One call -/

theorem setMaxHistoryPerEntry_cap (h : Vault.setMaxHistoryPerEntry db n = (r, db')) :
    db' = db ∨ (n < 2 ^ 63 ∧ ∀ k, k ≤ n → (historyCap db').Allows k) := by
  unfold Vault.setMaxHistoryPerEntry at h
  split at h
  · rename_i hn
    obtain ⟨-, rfl⟩ := Prod.mk.inj h
    refine .inr ⟨hn, fun k hk => ?_⟩
    unfold historyCap
    dsimp only
    rw [if_neg (Int.not_lt.2 (Int.natCast_nonneg n))]
    split
    · rename_i hzero
      exact Nat.le_zero.1 (hk.trans_eq (Int.ofNat_eq_zero.1 hzero))
    · exact hk
  · exact .inl (Prod.mk.inj h).2.symm

theorem capped_of_run (hl : Linked db) (hcap : Capped db) (hroom : call.FindsRoom db) (hsound : call.Sound db)
    (h : call.run db = .ok (r, db')) :
    Capped db' ∧ ∀ id e e', db.entry id = some e → db'.entry id = some e' → DropsOldest e e' := by
  have effect := (run_effect hl hsound h).1
  have unshortened : ∀ {e e' : Entry}, versions e' = versions e → DropsOldest e e' := fun hv =>
    ⟨[], [], .inl rfl, by rw [hv, List.append_nil]; rfl, fun v hv => nomatch hv⟩
  have dropped : ∀ id e e', db.entry id = some e → db'.entry id = some e' → DropsOldest e e' := by
    intro id e e' he he'
    have alters := effect.entry id
    rw [he, he'] at alters
    cases alters with
    | kept hv _ => exact unshortened hv
    | stamped _ hv _ => exact unshortened hv
    | recorded hupdates _ hv _ => exact recordHistory_dropsOldest (hcap id e he) (hroom.oldest id e hupdates he) hv
    | relocated _ hv _ => exact ⟨[e.toVersion], [], .inr rfl, by rw [hv, List.append_nil]; rfl, fun v hv => nomatch hv⟩
  refine ⟨?_, dropped⟩
  by_cases hset : ∃ n, call = .setMaxHistoryPerEntry n
  · obtain ⟨n, rfl⟩ := hset
    rcases setMaxHistoryPerEntry_cap (Except.ok.inj h) with rfl | ⟨hn, hallows⟩
    · exact hcap
    · intro id e' he'
      have alters := effect.entry id
      rw [he'] at alters
      generalize hbefore : db.entry id = before at alters
      cases alters with
      | kept hv _ => rw [hv]; exact hallows _ (hroom.fits n rfl hn id _ hbefore)
      | stamped hstamp _ _ => cases hstamp
      | recorded hupdates _ _ _ => exact hupdates.elim
      | relocated hrelocates _ _ => exact hrelocates.elim
      | added hv => rw [hv]; exact HistoryCap.allows_zero _
  · have cap : historyCap db' = historyCap db := effect.cap fun n hn => hset ⟨n, hn⟩
    intro id e' he'
    have alters := effect.entry id
    rw [he'] at alters
    rw [cap]
    generalize hbefore : db.entry id = before at alters
    cases alters with
    | kept hv _ => rw [hv]; exact hcap id _ hbefore
    | stamped _ hv _ => rw [hv]; exact hcap id _ hbefore
    | recorded _ _ hv _ => rw [hv]; exact recordHistory_allows (hcap id _ hbefore)
    | relocated hrelocates hv _ => rw [hv]; exact hroom.room id _ hrelocates hbefore
    | added hv => rw [hv]; exact HistoryCap.allows_zero _

/-! ## Newest first -/

/-- The clock of a call is not behind the entry it stamps. -/
def VaultCall.OnTime (db : Database) (call : VaultCall) : Prop :=
  ∀ id now e, call.stamps = some (id, now) → db.entry id = some e → e.time ≤ now

/-- A history in order ends with its oldest version. -/
theorem InOrder.oldest (h : InOrder e) : ∀ last ∈ (versions e).getLast?, ∀ v ∈ e.toVersion :: versions e,
    last.time ≤ v.time := by
  unfold InOrder at h
  generalize versions e = l at h ⊢
  cases l using List.reverseRecOn with
  | nil => intro last hlast; cases hlast
  | append_singleton l b =>
    intro last hlast v hv
    obtain rfl : b = last := by simpa using hlast
    rw [← List.cons_append, NewestFirst, List.pairwise_append] at h
    rw [← List.cons_append] at hv
    rcases List.mem_append.1 hv with hv | hv
    · exact h.2.2 v hv b (List.mem_singleton_self b)
    · rw [List.mem_singleton.1 hv]

theorem inOrder_of_run (hl : Linked db) (horder : ∀ id e, db.entry id = some e → InOrder e) (htime : call.OnTime db)
    (hsound : call.Sound db) (h : call.run db = .ok (r, db')) : ∀ id e, db'.entry id = some e → InOrder e := by
  intro id e' he'
  have alters := (run_effect hl hsound h).1.entry id
  rw [he'] at alters
  generalize hbefore : db.entry id = before at alters
  have later : ∀ {e : Entry}, db.entry id = some e → e.time ≤ e'.time → versions e' = versions e → InOrder e' := by
    intro e he hle hv
    obtain ⟨hnew, hsorted⟩ := newestFirst_cons.1 (horder id e he)
    refine newestFirst_cons.2 ⟨fun w hw => ?_, hv ▸ hsorted⟩
    exact (hnew w (hv ▸ hw)).trans hle
  cases alters with
  | kept hv ht => exact later hbefore ht.ge hv
  | stamped hstamp hv ht => exact later hbefore (ht.symm ▸ htime id _ _ hstamp hbefore) hv
  | @recorded e _ now _ hstamp hv ht =>
    have sorted := horder id e hbefore
    have hle : e.time ≤ e'.time := ht.symm ▸ htime id _ _ hstamp hbefore
    have behind : ∀ w ∈ e.toVersion :: versions e, w.time ≤ e'.time := by
      intro w hw
      rcases List.mem_cons.1 hw with rfl | hw
      · exact hle
      · exact ((newestFirst_cons.1 sorted).1 w hw).trans hle
    have kept : List.Sublist (versions e') (e.toVersion :: versions e) := by
      rw [hv]
      cases historyCap db with
      | unlimited => exact .refl _
      | disabled => exact List.sublist_cons_self _ _
      | max max => rw [versions_recordHistory_max]; exact List.take_sublist max _
    exact newestFirst_cons.2 ⟨fun w hw => behind w (kept.subset hw), List.Pairwise.sublist kept sorted⟩
  | @relocated e _ _ hv ht =>
    have sorted := horder id e hbefore
    rw [InOrder, hv]
    refine newestFirst_cons.2 ⟨fun w hw => ?_, sorted⟩
    have hle : e'.time = e.time := ht
    rcases List.mem_cons.1 hw with rfl | hw
    · exact hle.ge
    · exact ((newestFirst_cons.1 sorted).1 w hw).trans hle.ge
  | added hv => rw [InOrder, hv]; exact List.pairwise_singleton _ _

/-! ## Every session -/

/-- Histories stay in order while the clock runs forward, so the ones an update shortens do end with their oldest
version. -/
theorem session_inOrder {calls : List Called} (hl : Linked db) (horder : ∀ id e, db.entry id = some e → InOrder e)
    (h : Session db calls db') (htime : ∀ c ∈ calls, c.call.OnTime c.before) :
    ∀ id e, db'.entry id = some e → InOrder e := by
  induction h with
  | start => exact horder
  | call hs hsound hrun ih =>
    exact inOrder_of_run (hs.linked hl) (ih fun c hc => htime c (List.mem_append_left _ hc))
      (htime _ (List.mem_append_right _ (List.mem_singleton_self _))) hsound hrun

/-- While moves find room and no history is too long for a new cap, every history stays as short as the cap says, and
only oldest versions go. -/
theorem session_capped {calls : List Called} (hl : Linked db) (hcap : Capped db) (h : Session db calls db')
    (hroom : ∀ c ∈ calls, c.call.FindsRoom c.before) :
    Capped db' ∧ ∀ c ∈ calls, Capped c.after ∧
      ∀ id e e', c.before.entry id = some e → c.after.entry id = some e' → DropsOldest e e' := by
  induction h with
  | start => exact ⟨hcap, fun c hc => nomatch hc⟩
  | call hs hsound hrun ih =>
    obtain ⟨hcap, hcalls⟩ := ih fun c hc => hroom c (List.mem_append_left _ hc)
    have step := capped_of_run (hs.linked hl) hcap (hroom _ (List.mem_append_right _ (List.mem_singleton_self _)))
      hsound hrun
    refine ⟨step.1, fun c hc => ?_⟩
    rcases List.mem_append.1 hc with hc | hc
    · exact hcalls c hc
    · obtain rfl := List.mem_singleton.1 hc
      exact step

/-! A vault without histories, in which an entry is moved. -/

def renamed (name : String) (v : Version) : Except VaultError (HashMap String (Value String) × List String) :=
  .ok (v.fields.insert titleField (.unprotected name), v.tags)

def updatedEntry : Database := afterCall withEntry (.updateEntry 5 (renamed "bank account") 30)
def noHistory : Database := afterCall withEntry (.setMaxHistoryPerEntry 0)
def movedAnyway : Database := afterCall noHistory (.moveEntry 5 1 30)

theorem entering_findsRoom : ∀ c ∈ entering, c.call.FindsRoom c.before := by
  intro c hc
  simp only [entering, List.singleton_append, List.mem_cons, List.not_mem_nil, or_false] at hc
  rcases hc with rfl | rfl
  · exact ⟨fun _ _ h => h.elim, fun _ h => (nomatch h), fun _ _ h => h.elim⟩
  · exact ⟨fun _ _ h => h.elim, fun _ h => (nomatch h), fun _ _ h => h.elim⟩

theorem newVault_capped : Capped newVault := fun _ _ he => nomatch he

theorem session_capped_updated : Capped updatedEntry := by
  have updated : (VaultCall.updateEntry 5 (renamed "bank account") 30).run withEntry = .ok (.ok (), updatedEntry) := by
    decide +kernel
  have sound : (VaultCall.updateEntry 5 (renamed "bank account") 30).Sound withEntry := trivial
  have run := Session.call entering_session sound updated
  refine (session_capped (linked_withData _ _ _) newVault_capped run fun c hc => ?_).1
  rcases List.mem_append.1 hc with hc | hc
  · exact entering_findsRoom c hc
  · obtain rfl := List.mem_singleton.1 hc
    refine ⟨fun _ _ h => h.elim, fun _ h => (nomatch h), fun id e hid he hfull => ?_⟩
    obtain rfl : 5 = id := hid
    have short : ∀ e ∈ withEntry.entry 5, historyCap withEntry ≠ .max (versions e).length := by decide +kernel
    exact absurd hfull (short e he)

/-- A move writes to the history of an entry even when histories are switched off. -/
theorem move_overfills : ¬ ∀ db db' calls, Linked db → Capped db → Session db calls db' → Capped db' := by
  intro claim
  have disabled : (VaultCall.setMaxHistoryPerEntry 0).run withEntry = .ok (.ok (), noHistory) := by decide +kernel
  have moved : (VaultCall.moveEntry 5 1 30).run noHistory = .ok (.ok (), movedAnyway) := by decide +kernel
  have setSound : (VaultCall.setMaxHistoryPerEntry 0).Sound withEntry := trivial
  have moveSound : (VaultCall.moveEntry 5 1 30).Sound noHistory := trivial
  have run := Session.call (Session.call entering_session setSound disabled) moveSound moved
  have capped : historyCap movedAnyway = .disabled ∧ ∃ e ∈ movedAnyway.entry 5, (versions e).length = 1 := by
    decide +kernel
  obtain ⟨hcap, e, he, hlong⟩ := capped
  have allows := claim _ _ _ (linked_withData _ _ _) newVault_capped run 5 e he
  rw [hcap, hlong] at allows
  cases allows

end Falach
