import Falach.Sync.Attachments
/-!
# One entry's attachments added again

The repair adds the attachments of an entry one by one while the map still has the numbers from the other pool. Whether
all of them are there in the end depends on the free slots alone: a slot must not be given out while a name of the entry
still has its number.
-/

namespace Falach

open Keepass Database

variable {env : Env} {u u' remote : Database} {id : EntryId} {e : Entry} {v : Version} {c : AttachmentId}
  {spent : List AttachmentId} {held : List (Option AttachmentId)} {rest : List (String × Value Bytes)}

/-! ## Whether it works out -/

namespace Slots

theorem lookup_free (t : Slots) : t.lookup t.free = none := by
  rw [← Finmap.notMem_iff_lookup, ← Finmap.mem_keys]
  exact firstFree_notMem _

theorem mem_letGo {t : Slots} {c' : AttachmentId} (hc : c ∈ t) (hne : c ≠ c') : c ∈ t.letGo id c' := by
  unfold letGo
  split
  · exact hc
  · dsimp only
    split
    · exact Finmap.mem_erase.2 ⟨hne, hc⟩
    · exact Finmap.mem_insert.2 (.inr hc)

/-- Numbers that are all taken are not given out. -/
theorem readd_of_taken {t : Slots} (h : ∀ c, some c ∈ held → c ∉ spent → c ∈ t) :
    ∃ t', readd id t spent held = some t' := by
  induction held generalizing t spent with
  | nil => exact ⟨t, rfl⟩
  | cons o held ih =>
    have free : ¬ (some t.free ∈ o :: held ∧ t.free ∉ spent) := fun hf =>
      Finmap.notMem_iff_lookup.2 (lookup_free t) (h _ hf.1 hf.2)
    have taken : ∀ c, some c ∈ held → c ∉ spent → c ∈ t.take id := fun c hc hs =>
      Finmap.mem_insert.2 (.inr (h c (List.mem_cons_of_mem o hc) hs))
    rw [readd, if_neg free]
    split
    · exact ih taken
    · rename_i c₀ _
      refine ih fun c hc hs => ?_
      obtain ⟨hne, hs⟩ := not_or.1 (List.mem_cons.not.1 hs)
      exact mem_letGo (taken c hc hs) hne

end Slots

/-! ## What it comes to -/

/-- A name the entry lacks, and that is not added, is not there in the end. -/
theorem addAll_gone {n : String} (hn : n ∉ rest.map Prod.fst) (he : u.entry id = some e)
    (hno : e.attachments.lookup n = none) (h : addAll u id rest = .ok u') :
    ∃ e', u'.entry id = some e' ∧ e'.attachments.lookup n = none := by
  induction rest generalizing u e with
  | nil => cases h; exact ⟨e, he, hno⟩
  | cons w rest ih =>
    obtain ⟨u₁, h₁, h⟩ := Loop.foldlM_cons_ok.1 h
    obtain ⟨hw, hn⟩ := not_or.1 (List.mem_cons.not.1 hn)
    obtain ⟨e', m, he', he₁, -, hm, -⟩ := addAttachment_ok h₁
    rw [he, Option.some.injEq] at he'; subst he'
    refine ih hn he₁ ?_ h
    change m.lookup n = none
    rw [hm, if_neg hw, hno]; rfl

/-- A name in a slot that a name to come has as well is lost when that one lets go of it. -/
theorem addAll_taken {n : String} (hn : n ∉ rest.map Prod.fst) (he : u.entry id = some e)
    (hc : e.attachments.lookup n = some c) (hshared : ∃ w ∈ rest, e.attachments.lookup w.1 = some c)
    (h : addAll u id rest = .ok u') : ∃ e', u'.entry id = some e' ∧ e'.attachments.lookup n = none := by
  induction rest generalizing u e with
  | nil =>
    obtain ⟨w, hw, -⟩ := hshared
    cases hw
  | cons w rest ih =>
    obtain ⟨u₁, h₁, hrest⟩ := Loop.foldlM_cons_ok.1 h
    obtain ⟨hw, hn⟩ := not_or.1 (List.mem_cons.not.1 hn)
    obtain ⟨e', m, he', he₁, -, hm, -⟩ := addAttachment_ok h₁
    rw [he, Option.some.injEq] at he'; subst he'
    by_cases hnow : e.attachments.lookup w.1 = some c
    · refine addAll_gone hn he₁ ?_ hrest
      change m.lookup n = none
      rw [hm, if_neg hw, hc]
      simp [Option.filter, hnow]
    · obtain ⟨x, hx, hxc⟩ := hshared
      have hxw : x.1 ≠ w.1 := fun heq => hnow (heq ▸ hxc)
      have stays : ∀ k, k ≠ w.1 → e.attachments.lookup k = some c → m.lookup k = some c := by
        intro k hk hkc
        rw [hm, if_neg hk, hkc]
        simp [Option.filter, hnow]
      rcases List.mem_cons.1 hx with rfl | hx
      · exact absurd rfl hxw
      · exact ih hn he₁ (stays n hw hc) ⟨x, hx, stays x.1 hxw hxc⟩ hrest

/-- One round, if its slot is not one of a name to come: what is let go of by then, and the slots as foreseen. -/
theorem addAttachment_held (slot : String → Option AttachmentId) {w : String × Value Bytes}
    (hw : w.1 ∉ rest.map Prod.fst) (he : u.entry id = some e)
    (hheld : ∀ x ∈ w :: rest, e.attachments.lookup x.1 = (slot x.1).filter (· ∉ spent))
    (hfree : ¬ (some u.nextFree ∈ (w :: rest).map (fun w => slot w.1) ∧ u.nextFree ∉ spent))
    (h : u.addAttachment id w.1 w.2 = .ok u') :
    ∃ e' spent', u'.entry id = some e' ∧ (∀ c ∈ spent, c ∈ spent') ∧
      (∀ x ∈ rest, e'.attachments.lookup x.1 = (slot x.1).filter (· ∉ spent')) ∧
      Slots.readd id (slots u) spent ((w :: rest).map fun w => slot w.1) =
        Slots.readd id (slots u') spent' (rest.map fun w => slot w.1) := by
  obtain ⟨e₀, m, he₀, he', -, hm, -, hslots⟩ := addAttachment_ok h
  rw [he, Option.some.injEq] at he₀; subst he₀
  have hold := hheld w List.mem_cons_self
  have others : ∀ x ∈ rest, m.lookup x.1 = ((slot x.1).filter (· ∉ spent)).filter fun c =>
      e.attachments.lookup w.1 ≠ some c := by
    intro x hx
    have hne : x.1 ≠ w.1 := fun heq => hw (List.mem_map.2 ⟨x, hx, heq⟩)
    rw [hm, if_neg hne, hheld x (List.mem_cons_of_mem w hx)]
  rw [List.map_cons] at hfree ⊢
  rw [Slots.readd, free_slots, if_neg hfree, ← hold]
  cases hcur : e.attachments.lookup w.1 with
  | none =>
    rw [hcur] at hslots others
    refine ⟨_, spent, he', fun c hc => hc, fun x hx => ?_, by rw [hslots]⟩
    refine (others x hx).trans ?_
    cases (slot x.1).filter (· ∉ spent) <;> rfl
  | some c₀ =>
    rw [hcur] at hslots others
    refine ⟨_, c₀ :: spent, he', fun c hc => List.mem_cons_of_mem c₀ hc, fun x hx => ?_, by rw [hslots]⟩
    refine (others x hx).trans ?_
    rw [Option.filter_filter]
    congr 1
    funext c
    rw [Bool.eq_iff_iff]
    simp only [ne_eq, Option.some.injEq, Bool.and_eq_true, decide_eq_true_eq, List.mem_cons, not_or,
      eq_comm (a := c)]
    exact and_comm

/-- If a slot is given out while a name to come still has it, a name is lost. -/
theorem addAll_loses (slot : String → Option AttachmentId) (hn : (rest.map Prod.fst).Nodup) (he : u.entry id = some e)
    (hheld : ∀ w ∈ rest, e.attachments.lookup w.1 = (slot w.1).filter (· ∉ spent))
    (hstuck : Slots.readd id (slots u) spent (rest.map fun w => slot w.1) = none) (h : addAll u id rest = .ok u') :
    ∃ w ∈ rest, ∃ e', u'.entry id = some e' ∧ e'.attachments.lookup w.1 = none := by
  induction rest generalizing u e spent with
  | nil => cases hstuck
  | cons w rest ih =>
    obtain ⟨u₁, h₁, hrest⟩ := Loop.foldlM_cons_ok.1 h
    obtain ⟨hw, hn⟩ := List.nodup_cons.1 hn
    obtain ⟨e', m, he', he₁, -, hm, -⟩ := addAttachment_ok h₁
    rw [he, Option.some.injEq] at he'; subst he'
    by_cases hfree : some u.nextFree ∈ (w :: rest).map (fun w => slot w.1) ∧ u.nextFree ∉ spent
    · refine ⟨w, List.mem_cons_self, ?_⟩
      obtain ⟨x, hx, hxslot⟩ := List.mem_map.1 hfree.1
      have hxfree : e.attachments.lookup x.1 = some u.nextFree := by
        rw [hheld x hx, hxslot]
        simp [Option.filter, hfree.2]
      by_cases hcur : e.attachments.lookup w.1 = some u.nextFree
      · refine addAll_gone hw he₁ ?_ hrest
        change m.lookup w.1 = none
        rw [hm, if_pos rfl]
        simp [Option.filter, hcur]
      · have hxw : x.1 ≠ w.1 := fun heq => hcur (heq ▸ hxfree)
        rcases List.mem_cons.1 hx with rfl | hx
        · exact absurd rfl hxw
        refine addAll_taken hw he₁ (c := u.nextFree) ?_ ⟨x, hx, ?_⟩ hrest
        · change m.lookup w.1 = _
          rw [hm, if_pos rfl]
          simp [Option.filter, hcur]
        · change m.lookup x.1 = _
          rw [hm, if_neg hxw, hxfree]
          simp [Option.filter, hcur]
    · obtain ⟨e₁, spent', he', -, hheld', hnext⟩ := addAttachment_held slot hw he hheld hfree h₁
      rw [hnext] at hstuck
      obtain ⟨x, hx, hlost⟩ := ih hn he' hheld' hstuck hrest
      exact ⟨x, List.mem_cons_of_mem w hx, hlost⟩

/-- The attachments `rest` are added, with `slot` the slot each name had at first: `spent` are those let go of so far.
They get slots of their own, and slots that no name to come has are left alone. -/
theorem addAll_ok (slot : String → Option AttachmentId) {t : Slots} (hn : (rest.map Prod.fst).Nodup)
    (he : u.entry id = some e) (hheld : ∀ w ∈ rest, e.attachments.lookup w.1 = (slot w.1).filter (· ∉ spent))
    (hready : Slots.readd id (slots u) spent (rest.map fun w => slot w.1) = some t) (h : addAll u id rest = .ok u') :
    ∃ e', u'.entry id = some e' ∧ slots u' = t ∧
      (∀ n ∉ rest.map Prod.fst, ∀ c a, e.attachments.lookup n = some c → u.attachments.lookup c = some a →
        (∀ w ∈ rest, slot w.1 = some c → c ∈ spent) → e'.attachments.lookup n = some c ∧
          ∃ a', u'.attachments.lookup c = some a' ∧ a'.data = a.data ∧ a'.entries = a.entries) ∧
      ∀ w ∈ rest, ∃ c a, e'.attachments.lookup w.1 = some c ∧ u'.attachments.lookup c = some a ∧ a.data = w.2 ∧
        (id, none) ∈ a.entries := by
  induction rest generalizing u e spent with
  | nil =>
    cases h
    rw [List.map_nil, Slots.readd, Option.some.injEq] at hready
    exact ⟨e, he, hready, fun n _ c a hc ha _ => ⟨hc, a, ha, rfl, rfl⟩, fun w hw => by cases hw⟩
  | cons w rest ih =>
    obtain ⟨u₁, h₁, h⟩ := Loop.foldlM_cons_ok.1 h
    obtain ⟨hw, hn⟩ := List.nodup_cons.1 hn
    have hold := hheld w List.mem_cons_self
    have hfree : ¬ (some u.nextFree ∈ (w :: rest).map (fun w => slot w.1) ∧ u.nextFree ∉ spent) := by
      intro hfree
      rw [List.map_cons] at hfree hready
      rw [Slots.readd, free_slots, if_pos hfree] at hready
      cases hready
    obtain ⟨e₁, spent', he₁, hmono, hheld', hnext⟩ := addAttachment_held slot hw he hheld hfree h₁
    rw [hnext] at hready
    obtain ⟨e₀, m, he₀, hm₁, -, hm, hpool, -⟩ := addAttachment_ok h₁
    rw [he, Option.some.injEq] at he₀; subst he₀
    rw [he₁, Option.some.injEq] at hm₁; subst hm₁
    obtain ⟨e', hu', hslots', hkeep, hnew⟩ := ih hn he₁ hheld' hready h
    refine ⟨e', hu', hslots', fun n hno c a hc ha hspent => ?_, fun x hx => ?_⟩
    · obtain ⟨hnw, hno⟩ := not_or.1 (List.mem_cons.not.1 hno)
      -- `c` is not the slot that is let go of
      have hne : e.attachments.lookup w.1 ≠ some c := by
        intro heq
        rw [hold, Option.filter_eq_some_iff] at heq
        have : c ∉ spent := by simpa using heq.2
        exact this (hspent w List.mem_cons_self heq.1)
      obtain ⟨a₁, ha₁, hdata₁, hmem₁⟩ := hpool.left c a (lookup_stored w.2 id ha) (.inl fun x hx => hne hx.2)
      have hrefs₁ : a₁.entries = a.entries := Finset.ext fun r => (hmem₁ r).trans (and_iff_left fun hx => hne hx.2)
      have hstays : m.lookup n = some c := by
        rw [hm, if_neg hnw, hc]
        simp [Option.filter, hne]
      obtain ⟨hm', a', ha', hdata', hrefs'⟩ := hkeep n hno c a₁ hstays ha₁ fun x hx hxc =>
        hmono c (hspent x (List.mem_cons_of_mem w hx) hxc)
      exact ⟨hm', a', ha', hdata'.trans hdata₁, hrefs'.trans hrefs₁⟩
    · rcases List.mem_cons.1 hx with rfl | hx
      · -- the slot just taken: no name to come has it
        have hcur : e.attachments.lookup x.1 ≠ some u.nextFree := by
          intro heq
          rw [hold, Option.filter_eq_some_iff] at heq
          exact hfree ⟨List.mem_map.2 ⟨x, List.mem_cons_self, heq.1⟩, by simpa using heq.2⟩
        obtain ⟨a, ha, hdata, hmem⟩ := hpool.left u.nextFree _ (Finmap.lookup_insert _) (.inl fun y hy => hcur hy.2)
        have htaken : m.lookup x.1 = some u.nextFree := by
          rw [hm, if_pos rfl]
          simp [Option.filter, hcur]
        obtain ⟨hm', a', ha', hdata', hrefs'⟩ := hkeep x.1 hw u.nextFree a htaken ha fun y hy hyc => by
          by_contra hs
          exact hfree ⟨List.mem_map.2 ⟨y, List.mem_cons_of_mem x hy, hyc⟩, fun hin => hs (hmono _ hin)⟩
        refine ⟨_, a', hm', ha', hdata'.trans hdata, ?_⟩
        rw [hrefs', hmem]
        exact ⟨Finset.mem_singleton_self _, fun hy => hcur hy.2⟩
      · exact hnew x hx

/-- While attachments are added to an entry, it lets go of no slot but those it had under their names. -/
theorem addAll_refits (hn : (rest.map Prod.fst).Nodup) (he : u.entry id = some e) (h : addAll u id rest = .ok u') :
    Refits id (fun c => ∃ w ∈ rest, e.attachments.lookup w.1 = some c) u u' := by
  induction rest generalizing u e with
  | nil => cases h; exact .refl id _ _
  | cons w rest ih =>
    obtain ⟨u₁, h₁, h⟩ := Loop.foldlM_cons_ok.1 h
    obtain ⟨hw, hn⟩ := List.nodup_cons.1 hn
    obtain ⟨e', m, he', he₁, -, hm, -⟩ := addAttachment_ok h₁
    rw [he, Option.some.injEq] at he'; subst he'
    refine ((addAttachment_refits h₁).mono fun c hc => ?_).trans ((ih hn he₁ h).mono fun c hc => ?_)
    · obtain ⟨e', he', hc⟩ := hc
      rw [he, Option.some.injEq] at he'; subst he'
      exact ⟨w, List.mem_cons_self, hc⟩
    · obtain ⟨x, hx, hc⟩ := hc
      have hne : x.1 ≠ w.1 := fun heq => hw (List.mem_map.2 ⟨x, hx, heq⟩)
      change m.lookup x.1 = some c at hc
      rw [hm, if_neg hne, Option.filter_eq_some_iff] at hc
      exact ⟨x, List.mem_cons_of_mem w hx, hc.1⟩

/-! ## Attachments of its own -/

theorem entry_bump (he : u.entry id = some e) (now : NaiveDateTime) :
    ∃ e', (bump u id now).entry id = some e' ∧ e'.attachments = e.attachments := by
  rw [bump, entry_modifyEntry, if_pos rfl, he]
  exact ⟨_, rfl, rfl⟩

/-- Entry `id` has exactly the attachments that `v` has in `remote`, in slots that refer back to it. -/
def Owns (u : Database) (id : EntryId) (remote : Database) (v : Version) : Prop :=
  ∃ e, u.entry id = some e ∧ (∀ n, v.attachments.lookup n = none → e.attachments.lookup n = none) ∧
    ∀ n c, v.attachments.lookup n = some c → ∃ a c' a', remote.attachments.lookup c = some a ∧
      e.attachments.lookup n = some c' ∧ u.attachments.lookup c' = some a' ∧ a'.data = a.data ∧ (id, none) ∈ a'.entries

namespace Owns

theorem bytesOf (h : Owns u id remote v) (he : u.entry id = some e) : bytesOf u e.toVersion = bytesOf remote v := by
  obtain ⟨e', he', hnone, hsome⟩ := h
  rw [he, Option.some.injEq] at he'; subst he'
  refine Finmap.ext_lookup fun n => ?_
  rw [lookup_bytesOf, lookup_bytesOf]
  cases hn : v.attachments.lookup n with
  | none => rw [hnone n hn]; rfl
  | some c =>
    obtain ⟨a, c', a', ha, hc', ha', hdata, -⟩ := hsome n c hn
    rw [hc', Option.map_some, Option.map_some, ha, ha', Option.map_some, Option.map_some, hdata]

/-- Other entries cannot empty the slots. -/
theorem refits {id' : EntryId} {S : AttachmentId → Prop} (h : Owns u id remote v) (hr : Refits id' S u u')
    (hne : id ≠ id') : Owns u' id remote v := by
  obtain ⟨e, he, hnone, hsome⟩ := h
  refine ⟨e, by rw [hr.others id hne, he], hnone, fun n c hc => ?_⟩
  obtain ⟨a, c', a', ha, hc', ha', hdata, hown⟩ := hsome n c hc
  obtain ⟨a'', ha'', hdata', hown'⟩ := hr.held c' a' _ ha' hown hne
  exact ⟨a, c', a'', ha, hc', ha'', hdata'.trans hdata, hown'⟩

theorem bump (h : Owns u id remote v) (now : NaiveDateTime) : Owns (bump u id now) id remote v := by
  obtain ⟨e, he, hnone, hsome⟩ := h
  obtain ⟨e', he', hatt⟩ := entry_bump he now
  exact ⟨e', he', by rw [hatt]; exact hnone, by rw [hatt]; exact hsome⟩

end Owns

theorem slots_bump (db : Database) (id : EntryId) (now : NaiveDateTime) : slots (bump db id now) = slots db := rfl

/-- All attachments of a remote entry, added to an entry that has no other names. -/
theorem addAll_owns {site : Site} {s : Entry} {t : Slots} (hnamed : attachmentsNamed env site remote s = .ok rest)
    (he : u.entry id = some e) (hsub : ∀ n, s.attachments.lookup n = none → e.attachments.lookup n = none)
    (hready : Slots.readd id (slots u) [] (rest.map fun w => e.attachments.lookup w.1) = some t)
    (h : addAll u id rest = .ok u') : Owns u' id remote s.toVersion ∧ slots u' = t := by
  obtain ⟨hnames, heach⟩ := attachmentsNamed_ok hnamed
  have mem : ∀ n, n ∈ rest.map Prod.fst ↔ ∃ c, s.attachments.lookup n = some c := fun n => by
    rw [hnames, (env.names site s.id).mem_list, Finmap.mem_keys, Finmap.mem_iff]
  have hn : (rest.map Prod.fst).Nodup := by rw [hnames]; exact (env.names site s.id).nodup_list _
  have nothing : ∀ w ∈ rest, e.attachments.lookup w.1 =
    (e.attachments.lookup w.1).filter (· ∉ ([] : List AttachmentId)) :=
    fun w _ => by cases e.attachments.lookup w.1 <;> rfl
  obtain ⟨e', hu', hslots, -, hnew⟩ := addAll_ok (fun n => e.attachments.lookup n) hn he nothing hready h
  refine ⟨⟨_, hu', fun n hnone => ?_, fun n c hc => ?_⟩, hslots⟩
  · have : n ∉ rest.map Prod.fst := fun hin => by
      obtain ⟨c, hc⟩ := (mem n).1 hin
      rw [hnone] at hc; cases hc
    obtain ⟨e'', he'', hgone⟩ := addAll_gone this he (hsub n hnone) h
    rw [hu', Option.some.injEq] at he''; subst he''
    exact hgone
  · obtain ⟨w, hw, rfl⟩ := List.mem_map.1 ((mem n).2 ⟨c, hc⟩)
    obtain ⟨c₁, a, hc₁, ha, hdata⟩ := heach w hw
    rw [hc, Option.some.injEq] at hc₁; subst hc₁
    obtain ⟨c', a', hc', ha', hdata', hown⟩ := hnew w hw
    exact ⟨a, c', a', ha, hc', ha', hdata'.trans hdata.symm, hown⟩

end Falach
