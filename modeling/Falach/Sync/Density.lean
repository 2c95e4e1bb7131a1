import Falach.Sync.Attached
/-!
# Pools without gaps

`next_free` gives the lowest free number. So the numbers in use are the first ones as long as no slot is emptied below
another: an entry that lets go of a slot leaves it to another entry, or it was one of the last.
-/

namespace Falach

open Keepass Database

variable {env : Env} {localDb remote merged u u' : Database} {delta : EntryDelta} {id : EntryId} {e m s : Entry}
  {c : AttachmentId} {D : EntryId → AttachmentId → Prop} {P P' : EntryId → Prop} {spent : List AttachmentId}
  {held : List (Option AttachmentId)} {refs : Finset (EntryId × Option Nat)} {rest : List Entry}

/-- No number below one in use is free. -/
def Dense (used : Finset Nat) : Prop := ∃ n, used = Finset.range n

theorem firstFree_le (used : Finset Nat) (n i : Nat) : firstFree used n i ≤ i + n := by
  induction n generalizing i with
  | zero => exact Nat.le_refl i
  | succ n ih =>
    unfold firstFree
    split
    · have := ih (i + 1)
      omega
    · omega

theorem firstFree_range (n : Nat) : firstFree (Finset.range n) (Finset.range n).card 0 = n := by
  have hle := firstFree_le (Finset.range n) (Finset.range n).card 0
  have hfree := firstFree_notMem (Finset.range n)
  rw [Finset.mem_range] at hfree
  rw [Finset.card_range] at hle hfree ⊢
  omega

theorem Dense.of_downward {used : Finset Nat} (h : ∀ c ∈ used, ∀ c' < c, c' ∈ used) : Dense used := by
  refine ⟨used.sup (· + 1), Finset.ext fun c => ?_⟩
  rw [Finset.mem_range, Finset.lt_sup_iff]
  constructor
  · intro hc
    exact ⟨c, hc, Nat.lt_succ_self c⟩
  · rintro ⟨c', hc', hlt⟩
    rcases Nat.lt_succ_iff_lt_or_eq.1 hlt with hlt | rfl
    · exact h c' hc' c hlt
    · exact hc'

/-! ## Slots let go of -/

/-- The last of the references to slot `c` are let go of. -/
def Emptied (D : EntryId → AttachmentId → Prop) (p : Pool) (c : AttachmentId) : Prop :=
  (∃ x, D x c) ∧ ∃ a, p.lookup c = some a ∧ ∀ r ∈ a.entries, D r.1 c

/-- The slots that are emptied are the last ones. -/
def FromTheEnd (D : EntryId → AttachmentId → Prop) (p : Pool) : Prop :=
  ∀ c c', Emptied D p c → c' ∈ p → c < c' → Emptied D p c'

theorem dense_of_drains {p q : Pool} (h : Drains D p q) (hp : Dense p.keys) (hend : FromTheEnd D p) : Dense q.keys := by
  have mem : ∀ c, c ∈ q ↔ c ∈ p ∧ ¬ Emptied D p c := by
    intro c
    cases ha : p.lookup c with
    | none =>
      exact iff_of_false (Finmap.notMem_iff_lookup.2 (h.empty c ha)) fun hno => Finmap.notMem_iff_lookup.2 ha hno.1
    | some a =>
      have hc := Finmap.mem_of_lookup_eq_some ha
      by_cases gone : (∃ x, D x c) ∧ ∀ r ∈ a.entries, D r.1 c
      · refine iff_of_false (Finmap.notMem_iff_lookup.2 (h.erased c a ha gone.1 gone.2)) fun hno => hno.2 ?_
        exact ⟨gone.1, a, ha, gone.2⟩
      · have left : (∀ x, ¬ D x c) ∨ ∃ r ∈ a.entries, ¬ D r.1 c := by
          by_cases hD : ∃ x, D x c
          · exact .inr (by simpa using fun hno => gone ⟨hD, hno⟩)
          · exact .inl (not_exists.1 hD)
        obtain ⟨a', ha', -⟩ := h.left c a ha left
        refine iff_of_true (Finmap.mem_of_lookup_eq_some ha') ⟨hc, ?_⟩
        rintro ⟨hD, a₀, ha₀, hall⟩
        rw [ha, Option.some.injEq] at ha₀; subst ha₀
        exact gone ⟨hD, hall⟩
  obtain ⟨n, hn⟩ := hp
  refine .of_downward fun c hc c' hlt => ?_
  rw [Finmap.mem_keys, mem] at hc ⊢
  have hc' : c' ∈ p := by
    have hrange := Finmap.mem_keys.2 hc.1
    rw [hn, Finset.mem_range] at hrange
    rw [← Finmap.mem_keys, hn, Finset.mem_range]
    exact Nat.lt_trans hlt hrange
  exact ⟨hc', fun hemptied => hc.2 (hend c' c hemptied hc.1 hlt)⟩

/-! ## Slots given out again -/

/-- Slot `c` stays: nobody lets go of it, or a reference of an entry is left that does not, or that has its turn
behind it. -/
def Kept (D : EntryId → AttachmentId → Prop) (P : EntryId → Prop) (c : AttachmentId)
    (refs : Finset (EntryId × Option Nat)) : Prop :=
  (∀ x, ¬ D x c) ∨ ∃ r ∈ refs, ¬ D r.1 c ∨ P r.1

theorem Kept.mono (h : Kept D P c refs) (hP : ∀ x, P x → P' x) : Kept D P' c refs :=
  h.imp_right fun ⟨r, hr, hcases⟩ => ⟨r, hr, hcases.imp_right (hP r.1)⟩

/-- An entry whose turn it is leaves the slot to others. -/
theorem Kept.other (h : Kept D P c refs) (hD : D id c) (hP : ¬ P id) :
    Kept D P c (refs.filter fun x => x.1 ≠ id) ∧ refs.filter (fun x => x.1 ≠ id) ≠ ∅ := by
  obtain ⟨r, hr, hcases⟩ := h.resolve_left fun hno => hno id hD
  have hne : r.1 ≠ id := by
    rintro rfl
    exact hcases.elim (fun hno => hno hD) hP
  have hleft : r ∈ refs.filter fun x => x.1 ≠ id := Finset.mem_filter.2 ⟨hr, hne⟩
  exact ⟨.inr ⟨r, hleft, hcases⟩, Finset.ne_empty_of_mem hleft⟩

namespace Slots

variable {t t' : Slots}

/-- All slots stay. -/
structure Firm (D : EntryId → AttachmentId → Prop) (P : EntryId → Prop) (t : Slots) : Prop where
  dense : Dense t.keys
  kept : ∀ c refs, t.lookup c = some refs → Kept D P c refs

theorem Firm.mono (h : Firm D P t) (hP : ∀ x, P x → P' x) : Firm D P' t :=
  ⟨h.dense, fun c refs hc => (h.kept c refs hc).mono hP⟩

theorem dense_take (h : Dense t.keys) (id : EntryId) : Dense (t.take id).keys := by
  obtain ⟨n, hn⟩ := h
  refine ⟨n + 1, Finset.ext fun c => ?_⟩
  have hfree : t.free = n := by rw [free, hn, firstFree_range]
  rw [Finmap.mem_keys, take, Finmap.mem_insert, hfree, ← Finmap.mem_keys, hn, Finset.range_add_one, Finset.mem_insert]

theorem lookup_take (t : Slots) (id : EntryId) (c : AttachmentId) :
    (t.take id).lookup c = if c = t.free then some {(id, none)} else t.lookup c := Finmap.lookup_insert_eq _ _ _ _

/-- A slot with a reference of another entry is not emptied. -/
theorem letGo_of_other (hc : t.lookup c = some refs) (hother : refs.filter (fun x => x.1 ≠ id) ≠ ∅) :
    t.letGo id c = t.insert c (refs.filter fun x => x.1 ≠ id) := by
  unfold letGo
  rw [hc]
  exact if_neg hother

theorem keys_letGo (hother : ∀ refs, t.lookup c = some refs → refs.filter (fun x => x.1 ≠ id) ≠ ∅) :
    (t.letGo id c).keys = t.keys := by
  cases hc : t.lookup c with
  | none => unfold letGo; rw [hc]
  | some refs =>
    rw [letGo_of_other hc (hother refs hc)]
    refine Finset.ext fun c' => ?_
    rw [Finmap.mem_keys, Finmap.mem_keys, Finmap.mem_insert]
    exact or_iff_right_of_imp fun heq => heq ▸ Finmap.mem_of_lookup_eq_some hc

theorem lookup_letGo_ne {c' : AttachmentId} (hne : c' ≠ c) : (t.letGo id c).lookup c' = t.lookup c' := by
  unfold letGo
  split
  · rfl
  · dsimp only
    split
    · exact Finmap.lookup_erase_ne hne
    · exact Finmap.lookup_insert_of_ne _ hne

theorem Firm.letGo (h : Firm D P t) (hD : D id c) (hP : ¬ P id) : Firm D P (t.letGo id c) := by
  refine ⟨?_, fun c' refs' hc' => ?_⟩
  · rw [keys_letGo fun refs hc => ((h.kept c refs hc).other hD hP).2]
    exact h.dense
  · by_cases heq : c' = c
    · subst heq
      cases hc : t.lookup c' with
      | none =>
        unfold Slots.letGo at hc'
        rw [hc] at hc'
        exact h.kept c' refs' hc'
      | some refs =>
        obtain ⟨hkept, hother⟩ := (h.kept c' refs hc).other hD hP
        rw [letGo_of_other hc hother, Finmap.lookup_insert, Option.some.injEq] at hc'
        exact hc' ▸ hkept
    · rw [lookup_letGo_ne heq] at hc'
      exact h.kept c' refs' hc'

/-- While entry `id` gets its attachments again: the slots given out to it are not let go of any more. -/
structure Refilling (D : EntryId → AttachmentId → Prop) (P : EntryId → Prop) (id : EntryId) (spent : List AttachmentId)
    (held : List (Option AttachmentId)) (t : Slots) : Prop where
  dense : Dense t.keys
  kept : ∀ c refs, t.lookup c = some refs →
    Kept D P c refs ∨ ((id, none) ∈ refs ∧ ¬ (some c ∈ held ∧ c ∉ spent))

theorem Refilling.take {o : Option AttachmentId} (h : Refilling D P id spent (o :: held) t)
    (hfree : ¬ (some t.free ∈ o :: held ∧ t.free ∉ spent)) : Refilling D P id spent (o :: held) (t.take id) := by
  refine ⟨dense_take h.dense id, fun c refs hc => ?_⟩
  rw [lookup_take] at hc
  split at hc
  · subst_vars
    obtain rfl := Option.some.inj hc
    exact .inr ⟨Finset.mem_singleton_self _, hfree⟩
  · exact h.kept c refs hc

theorem Refilling.letGo (h : Refilling D P id spent (some c :: held) t) (hc : c ∉ spent) (hD : D id c) (hP : ¬ P id) :
    Refilling D P id (c :: spent) held (t.letGo id c) := by
  have now : ∀ refs, t.lookup c = some refs → Kept D P c refs := fun refs hrefs =>
    (h.kept c refs hrefs).resolve_right fun hno => hno.2 ⟨List.mem_cons_self, hc⟩
  refine ⟨?_, fun c' refs' hc' => ?_⟩
  · rw [keys_letGo fun refs hrefs => ((now refs hrefs).other hD hP).2]
    exact h.dense
  · by_cases heq : c' = c
    · subst heq
      cases hrefs : t.lookup c' with
      | none =>
        unfold Slots.letGo at hc'
        rw [hrefs] at hc'
        dsimp only at hc'
        rw [hrefs] at hc'; cases hc'
      | some refs =>
        obtain ⟨hkept, hother⟩ := (now refs hrefs).other hD hP
        rw [letGo_of_other hrefs hother, Finmap.lookup_insert, Option.some.injEq] at hc'
        exact .inl (hc' ▸ hkept)
    · rw [lookup_letGo_ne heq] at hc'
      refine (h.kept c' refs' hc').imp_right fun ⟨hr, hno⟩ => ⟨hr, fun hin => hno ⟨List.mem_cons_of_mem _ hin.1, ?_⟩⟩
      exact fun hspent => hin.2 (List.mem_cons_of_mem c hspent)

/-- Attachments added again leave no gap behind. -/
theorem Refilling.readd (h : Refilling D P id spent held t) (hD : ∀ c, some c ∈ held → D id c) (hP : ¬ P id)
    (hready : Slots.readd id t spent held = some t') : Firm D (fun x => P x ∨ x = id) t' := by
  induction held generalizing t spent with
  | nil =>
    rw [Slots.readd, Option.some.injEq] at hready
    subst hready
    refine ⟨h.dense, fun c refs hc => ?_⟩
    rcases h.kept c refs hc with hkept | ⟨hr, -⟩
    · exact hkept.mono fun x hx => .inl hx
    · exact .inr ⟨_, hr, .inr (.inr rfl)⟩
  | cons o held ih =>
    have later : ∀ c, some c ∈ held → D id c := fun c hc => hD c (List.mem_cons_of_mem o hc)
    rw [Slots.readd] at hready
    split at hready
    · cases hready
    rename_i hfree
    have taken := h.take hfree
    split at hready
    · refine ih ⟨taken.dense, fun c refs hc => ?_⟩ later hready
      refine (taken.kept c refs hc).imp_right ?_
      rintro ⟨hr, hno⟩
      exact ⟨hr, fun hin => hno ⟨List.mem_cons_of_mem o hin.1, hin.2⟩⟩
    · rename_i c₀ ho
      rw [Option.filter_eq_some_iff] at ho
      obtain ⟨rfl, hspent⟩ := ho
      exact ih (taken.letGo (by simpa using hspent) (hD c₀ List.mem_cons_self) hP) later hready

theorem Firm.readd (h : Firm D P t) (hD : ∀ c, some c ∈ held → D id c) (hP : ¬ P id)
    (hready : Slots.readd id t [] held = some t') : Firm D (fun x => P x ∨ x = id) t' :=
  Refilling.readd ⟨h.dense, fun c refs hc => .inl (h.kept c refs hc)⟩ hD hP hready

end Slots

/-! ## The passes of a `reconcile` -/

theorem mem_slots (db : Database) (c : AttachmentId) : c ∈ slots db ↔ c ∈ db.attachments := Finmap.mem_mapVals

theorem keys_slots (db : Database) : (slots db).keys = db.attachments.keys := Finmap.keys_mapVals _ _

/-- An attachment is added where no gap arises, unless its name leaves the slot it had empty. -/
theorem addAttachment_dense {name : String} {data : Value Bytes} (h : u.addAttachment id name data = .ok u')
    (hdense : Dense u.attachments.keys) (hother : ∀ e c a, u.entry id = some e → e.attachments.lookup name = some c →
      u.attachments.lookup c = some a → ∃ r ∈ a.entries, r.1 ≠ id) : Dense u'.attachments.keys := by
  obtain ⟨e, m, he, -, -, -, -, hslots⟩ := addAttachment_ok h
  rw [← keys_slots] at hdense ⊢
  rw [hslots]
  cases hc : e.attachments.lookup name with
  | none => exact Slots.dense_take hdense id
  | some c =>
    change Dense (((slots u).take id).letGo id c).keys
    by_cases hfree : c = (slots u).free
    · -- the number was free: the new slot goes again at once
      have hgone : ((slots u).take id).letGo id c = ((slots u).take id).erase c := by
        unfold Slots.letGo
        rw [Slots.lookup_take, if_pos hfree]
        exact if_pos (by simp)
      rw [hgone, Finmap.keys_erase]
      refine Eq.subst (Finset.ext fun k => ?_) hdense
      rw [Finset.mem_erase, Finmap.mem_keys, Finmap.mem_keys, Slots.take, Finmap.mem_insert, hfree]
      refine ⟨fun hk => ⟨?_, .inr hk⟩, fun hk => hk.2.resolve_left hk.1⟩
      rintro rfl
      exact Finmap.notMem_iff_lookup.2 (Slots.lookup_free _) hk
    · rw [Slots.keys_letGo fun refs hrefs => ?_]
      · exact Slots.dense_take hdense id
      · rw [Slots.lookup_take, if_neg hfree, lookup_slots] at hrefs
        obtain ⟨a, ha, rfl⟩ := Option.map_eq_some_iff.1 hrefs
        obtain ⟨r, hr, hne⟩ := hother e c a he hc ha
        exact Finset.ne_empty_of_mem (Finset.mem_filter.2 ⟨hr, hne⟩)

theorem slots_removeAttachmentByName {name : String} (he : u.entry id = some e)
    (h : u.removeAttachmentByName id name = .ok u') : slots u' = match e.attachments.lookup name with
      | none => slots u
      | some c => (slots u).letGo id c := by
  simp only [removeAttachmentByName, Loop.bind_ok, expect_ok] at h
  obtain ⟨e', he', h⟩ := h
  rw [he, Option.some.injEq] at he'; subst he'
  cases hc : e.attachments.lookup name with
  | none =>
    rw [hc] at h
    obtain rfl := Loop.pure_ok.1 h
    rfl
  | some c =>
    rw [hc] at h
    obtain rfl := Loop.pure_ok.1 h
    exact slots_dropReference (modifyEntry u id _) id c

theorem removeAll_firm {names : List String} (he : u.entry id = some e) (hD : ∀ c, e.Uses c → D id c) (hP : ¬ P id)
    (hfirm : (slots u).Firm D P) (h : names.foldlM (fun db name => removeAttachmentByName db id name) u =
      Except.ok u') :
    (slots u').Firm D P ∧ (slots u').keys = (slots u).keys := by
  induction names generalizing u e with
  | nil => cases h; exact ⟨hfirm, rfl⟩
  | cons name names ih =>
    obtain ⟨u₁, h₁, h⟩ := Loop.foldlM_cons_ok.1 h
    obtain ⟨e', m, he', he₁, -, hm, -⟩ := removeAttachmentByName_ok h₁
    rw [he, Option.some.injEq] at he'; subst he'
    have hD₁ : ∀ c, Version.Uses { e.toVersion with attachments := m } c → D id c := by
      rintro c ⟨n, hc⟩
      change m.lookup n = some c at hc
      rw [hm] at hc
      split at hc
      · cases hc
      · exact hD c ⟨n, hc⟩
    have hslots := slots_removeAttachmentByName he h₁
    cases hc : e.attachments.lookup name with
    | none =>
      rw [hc] at hslots
      obtain ⟨hlast, hkeys⟩ := ih he₁ hD₁ (hslots ▸ hfirm) h
      exact ⟨hlast, hkeys.trans (congrArg _ hslots)⟩
    | some c =>
      rw [hc] at hslots
      have hlets := hD c ⟨name, hc⟩
      obtain ⟨hlast, hkeys⟩ := ih he₁ hD₁ (hslots ▸ hfirm.letGo hlets hP) h
      refine ⟨hlast, hkeys.trans ((congrArg _ hslots).trans ?_)⟩
      exact Slots.keys_letGo fun refs hrefs => ((hfirm.kept c refs hrefs).other hlets hP).2

/-- A version with the bytes of an entry whose attachments are all there has them all as well. -/
theorem lookup_of_bytesOf {site : Site} {d : Version} {named : List (String × Value Bytes)}
    (hnamed : attachmentsNamed env site remote s = .ok named) (hsame : bytesOf localDb d = bytesOf remote s.toVersion)
    (hc : d.Uses c) : ∃ a, localDb.attachments.lookup c = some a := by
  obtain ⟨n, hc⟩ := hc
  obtain ⟨hnames, heach⟩ := attachmentsNamed_ok hnamed
  have hn : (bytesOf localDb d).lookup n = (bytesOf remote s.toVersion).lookup n := by rw [hsame]
  rw [lookup_bytesOf, lookup_bytesOf, hc, Option.map_some] at hn
  obtain ⟨c', hc', hbytes⟩ := Option.map_eq_some_iff.1 hn.symm
  have hin : n ∈ named.map Prod.fst := by
    rw [hnames, (env.names _ s.id).mem_list, Finmap.mem_keys]
    exact Finmap.mem_of_lookup_eq_some hc'
  obtain ⟨x, hx, rfl⟩ := List.mem_map.1 hin
  obtain ⟨c₁, a, hc₁, ha, -⟩ := heach x hx
  rw [hc', Option.some.injEq] at hc₁; subst hc₁
  rw [ha, Option.map_some] at hbytes
  obtain ⟨a', ha', -⟩ := Option.map_eq_some_iff.1 hbytes.symm
  exact ⟨a', ha'⟩

/-- A round of the pass for entries on both sides leaves no gap. -/
theorem adoptAttachments_firm (hm : u.entry id = some m) (hD : ∀ c, m.Uses c → D id c) (hP : ¬ P id)
    (hfirm : (slots u).Firm D P) (h : adoptAttachments env remote s m u id = .ok u') :
    (slots u').Firm D fun x => P x ∨ x = id := by
  simp only [adoptAttachments, Loop.bind_ok] at h
  obtain ⟨wanted, hwanted, heldNames, hheld, h⟩ := h
  split at h
  · rw [← Loop.pure_ok.1 h]
    exact hfirm.mono fun x hx => .inl hx
  obtain ⟨u₁, h₁, h⟩ := Loop.bind_ok.1 h
  obtain ⟨u₂, h₂, h⟩ := Loop.bind_ok.1 h
  obtain rfl := Loop.pure_ok.1 h
  obtain ⟨hfirm₁, hkeys⟩ := removeAll_firm hm hD hP hfirm h₁
  obtain ⟨⟨m₁, hu₁, hm₁⟩, -⟩ := removeAll_ok hm h₁
  have stays : ∀ n c, m₁.lookup n = some c → m.attachments.lookup n = some c := by
    intro n c hc
    rw [hm₁] at hc
    split at hc
    · cases hc
    · exact hc
  -- the slots the entry still has are in the pool, so none of them is given out
  have taken : ∀ c, some c ∈ (wanted.map fun w => m₁.lookup w.1) → c ∉ ([] : List AttachmentId) → c ∈ slots u₁ := by
    intro c hc _
    obtain ⟨w, -, hc⟩ := List.mem_map.1 hc
    obtain ⟨hnames, heach⟩ := attachmentsNamed_ok hheld
    have hin : w.1 ∈ heldNames.map Prod.fst := by
      rw [hnames, (env.names _ m.id).mem_list, Finmap.mem_keys]
      exact Finmap.mem_of_lookup_eq_some (stays w.1 c hc)
    obtain ⟨x, hx, hxw⟩ := List.mem_map.1 hin
    obtain ⟨c', a, hc', ha, -⟩ := heach x hx
    rw [hxw, stays w.1 c hc, Option.some.injEq] at hc'; subst hc'
    rw [← Finmap.mem_keys, hkeys, Finmap.mem_keys, mem_slots]
    exact Finmap.mem_of_lookup_eq_some ha
  obtain ⟨t, ht⟩ := Slots.readd_of_taken taken
  have nothing : ∀ w ∈ wanted, m₁.lookup w.1 = (m₁.lookup w.1).filter (· ∉ ([] : List AttachmentId)) := fun w _ => by
    cases m₁.lookup w.1 <;> rfl
  obtain ⟨-, -, hslots, -⟩ := addAll_ok (fun n => m₁.lookup n) (names_nodup hwanted) hu₁ nothing ht h₂
  rw [slots_bump, hslots]
  refine hfirm₁.readd (fun c hc => ?_) hP ht
  obtain ⟨w, -, hc⟩ := List.mem_map.1 hc
  exact hD c ⟨w.1, stays w.1 c hc⟩

/-! ## A whole `reconcile` -/

/-- No slot of the local pool is emptied. -/
def Unemptied (env : Env) (localDb remote : Database) : Prop :=
  ∀ c a, localDb.attachments.lookup c = some a → Kept (LetsGo env localDb remote) (fun _ => False) c a.entries

theorem Kept.guarded {a : Attachment} (h : Kept D (fun _ => False) c a.entries) (ha : u.attachments.lookup c = some a) :
    Guarded D u.attachments c a.data :=
  ⟨a, ha, rfl, h.imp_right fun ⟨r, hr, hcases⟩ => ⟨r, hr, hcases.resolve_right id⟩⟩

namespace Stages

variable (stages : Stages env localDb remote merged delta) (hl : Linked localDb) (hr : Linked remote)

include hl hr in
/-- The merge empties no slot. -/
theorem backfilled_firm (hdense : Dense localDb.attachments.keys) (hkept : Unemptied env localDb remote) :
    (slots stages.backfilled).Firm (LetsGo env localDb remote) fun _ => False := by
  have drains := stages.backfilled_drains hl hr
  have still : ∀ c a, localDb.attachments.lookup c = some a →
      (∀ x, ¬ LeavesSlot env localDb remote x c) ∨ ∃ r ∈ a.entries, ¬ LeavesSlot env localDb remote r.1 c :=
        fun c a ha =>
    (hkept c a ha).imp (fun hno x hx => hno x (.removed hx)) fun ⟨r, hr, hcases⟩ =>
      ⟨r, hr, fun hx => (hcases.resolve_right id) (.removed hx)⟩
  refine ⟨?_, fun c refs hc => ?_⟩
  · rw [keys_slots]
    refine dense_of_drains drains hdense fun c c' hemptied _ _ => ?_
    obtain ⟨⟨x, hx⟩, a, ha, hall⟩ := hemptied
    rcases still c a ha with hno | ⟨r, hr, hno⟩
    · exact absurd hx (hno x)
    · exact absurd (hall r hr) hno
  · rw [lookup_slots] at hc
    obtain ⟨a', ha', rfl⟩ := Option.map_eq_some_iff.1 hc
    cases ha : localDb.attachments.lookup c with
    | none =>
      rw [drains.empty c ha] at ha'; cases ha'
    | some a =>
      obtain ⟨a₁, ha₁, -, hmem⟩ := drains.left c a ha (still c a ha)
      rw [ha', Option.some.injEq] at ha₁; subst ha₁
      refine (hkept c a ha).imp_right fun ⟨r, hr, hcases⟩ => ⟨r, (hmem r).2 ⟨hr, fun hx => ?_⟩, hcases⟩
      exact (hcases.resolve_right id) (.removed hx)

/-- What the repair of all but `rest` leaves: the entries that are done have slots of their own. -/
def RepairedFirmly (rest : List Entry) (u : Database) : Prop :=
  stages.Repairing rest u ∧ (slots u).Firm (LetsGo env localDb remote) fun x => localDb.entry x = none ∧
    x ∉ rest.map (·.id)

include hl hr in
theorem repairedFirmly_step {u u' : Database} (hn : ((s :: rest).map (·.id)).Nodup) (hmem : s ∈ stages.remotePre)
    (hrefreshes : Refreshes env localDb remote (slots stages.backfilled) stages.remotePre)
    (inv : stages.RepairedFirmly (s :: rest) u) (h : repairAdded env remote stages.localPre u s = .ok u') :
    stages.RepairedFirmly rest u' := by
  obtain ⟨inv, hfirm⟩ := inv
  have hs := stages.remotePre_entry hr hmem
  have hnot := (List.nodup_cons.1 hn).1
  refine ⟨stages.repairing_step hl hr hn hmem inv h, ?_⟩
  by_cases hadded : localDb.entry s.id = none ∧ EntryStays env localDb remote s.id
  · have hlocal : s.id ∉ stages.localPre.map (·.id) := by
      rw [stages.mem_localPre hl]
      exact Finmap.notMem_iff_lookup.2 hadded.1
    obtain ⟨e, he⟩ := (mem_entries _).1 ((stages.backfilled_mem hl hr s.id).2 hadded.2)
    have hatt : e.attachments = s.attachments := by
      rcases stages.backfilled_attachments hl hr he with ⟨d, hd, -⟩ | ⟨-, s', hs', hatt⟩
      · rw [hadded.1] at hd; cases hd
      · rw [hs, Option.some.injEq] at hs'; subst hs'
        exact hatt
    rw [← inv.todo s List.mem_cons_self] at he
    cases (inv.owns hrefreshes).1 with
    | skip hno _ => exact absurd hadded hno
    | readd _ ht _ =>
      obtain ⟨-, hslots⟩ := repairAdded_owns hs hlocal he hatt ht h
      rw [hslots]
      refine (hfirm.readd (fun c hc => ?_) (fun hdone => hdone.2 List.mem_cons_self) ht).mono ?_
      · obtain ⟨n, -, hc⟩ := List.mem_map.1 hc
        exact .repaired s hadded.2 hadded.1 hs ⟨n, hc⟩
      · rintro x (hx | rfl)
        · exact ⟨hx.1, fun hin => hx.2 (List.mem_cons_of_mem _ hin)⟩
        · exact ⟨hadded.1, hnot⟩
  · -- the round is not for this entry
    have hsame : u' = u := by
      rcases repairAdded_cases hs h with ⟨heq, -⟩ | ⟨hpre, hthere, -⟩
      · exact heq
      · rw [stages.mem_localPre hl, Finmap.notMem_iff_lookup] at hpre
        exact absurd ⟨hpre, inv.mem s.id hthere⟩ hadded
    rw [hsame]
    exact hfirm.mono fun x hx => ⟨hx.1, fun hin => hx.2 (List.mem_cons_of_mem _ hin)⟩

include hl hr in
theorem repaired_firm (hdense : Dense localDb.attachments.keys) (hkept : Unemptied env localDb remote)
    (hready : Repairable env localDb remote) : stages.RepairedFirmly [] stages.repaired := by
  have hn := collectLiveEntries_nodup hr stages.remotePre_eq
  have hrefreshes := hready _ _ (stages.backfilled_drains hl hr) stages.remotePre_eq
  refine Loop.foldlM_inv_rest stages.RepairedFirmly (fun s rest u u' hsuffix inv h => ?_) stages.repair_eq ?_
  · have hn' := hn.sublist (hsuffix.sublist.map _)
    exact stages.repairedFirmly_step hl hr hn' (hsuffix.subset List.mem_cons_self) hrefreshes inv h
  · exact ⟨stages.backfilled_repairing hl hr, (stages.backfilled_firm hl hr hdense hkept).mono fun _ hx => hx.elim⟩

/-- What the pass for entries on both sides leaves of it, all but `rest` done. -/
structure PropagatedFirmly (rest : List Entry) (u : Database) : Prop where
  mem : ∀ id, id ∈ u.entries → EntryStays env localDb remote id
  todo : ∀ s ∈ rest, s.id ∈ localDb.entries → u.entry s.id = stages.backfilled.entry s.id
  data : ∀ c a, localDb.attachments.lookup c = some a → Guarded (LetsGo env localDb remote) u.attachments c a.data
  firm : (slots u).Firm (LetsGo env localDb remote) fun x => localDb.entry x = none ∨ x ∉ rest.map (·.id)

include hl hr in
theorem repaired_propagatedFirmly (hdense : Dense localDb.attachments.keys) (hkept : Unemptied env localDb remote)
    (hready : Repairable env localDb remote) : stages.PropagatedFirmly stages.remotePre stages.repaired := by
  obtain ⟨inv, hfirm⟩ := stages.repaired_firm hl hr hdense hkept hready
  refine ⟨inv.mem, fun s _ hs => inv.locals s.id hs, fun c a ha => ?_, hfirm.mono fun x hx => .inl hx.1⟩
  refine inv.guards _ (fun x c s hstays hnone hs hc => .repaired s hstays hnone hs hc) c a.data ?_
  exact (stages.backfilled_drains hl hr).guarded (fun x hx => .removed hx) ((hkept c a ha).guarded ha)

include hl hr in
theorem propagatedFirmly_step {u u' : Database} (hn : ((s :: rest).map (·.id)).Nodup) (hmem : s ∈ stages.remotePre)
    (inv : stages.PropagatedFirmly (s :: rest) u) (h : propagate env remote stages.localPre u s = .ok u') :
    stages.PropagatedFirmly rest u' := by
  have hs := stages.remotePre_entry hr hmem
  obtain ⟨hnot, hn⟩ := List.nodup_cons.1 hn
  have skip : u' = u → stages.PropagatedFirmly rest u' := by
    rintro rfl
    refine ⟨inv.mem, fun x hx => inv.todo x (List.mem_cons_of_mem s hx), inv.data, inv.firm.mono fun x hx => ?_⟩
    exact hx.imp_right fun hno hin => hno (List.mem_cons_of_mem _ hin)
  -- the pass acts on an entry of both sides of which the local one is older
  by_cases hacts : ∃ d m, localDb.entry s.id = some d ∧ u.entry s.id = some m ∧
      timeLe s.times.lastModification d.times.lastModification = false
  · obtain ⟨d, m, hd, hm, hnewer⟩ := hacts
    have hstays := inv.mem s.id ((mem_entries u).2 ⟨m, hm⟩)
    have hatt : m.attachments = d.attachments := by
      have he := hm
      rw [inv.todo s List.mem_cons_self ((mem_entries localDb).2 ⟨d, hd⟩)] at he
      rcases stages.backfilled_attachments hl hr he with ⟨d', hd', hatt⟩ | ⟨hnone, -⟩
      · rw [hd, Option.some.injEq] at hd'; subst hd'
        exact hatt
      · rw [hd] at hnone; cases hnone
    have hadopt := propagate_acts hl stages.localPre_eq hs hd hm hnewer h
    rcases adoptAttachments_cases hm hadopt with ⟨heq, -⟩ | ⟨hdiffers, hrefits, -⟩
    · exact skip heq
    have hadopts : Adopts localDb remote s.id d s := by
      refine ⟨hd, hs, hnewer, fun hsame => hdiffers ?_⟩
      obtain ⟨wanted, hwanted, -⟩ := Loop.bind_ok.1 hadopt
      rw [← hsame]
      refine Stages.bytesOf_of_guarded (D := LetsGo env localDb remote) hatt fun c hc => ?_
      obtain ⟨a, ha⟩ := lookup_of_bytesOf hwanted hsame hc
      exact ⟨a, ha, inv.data c a ha⟩
    have letsGo : ∀ c, m.Uses c → LetsGo env localDb remote s.id c := by
      rintro c ⟨n, hc⟩
      exact .adopted d s hstays hadopts ⟨n, hatt ▸ hc⟩
    have hturn : ¬ (localDb.entry s.id = none ∨ s.id ∉ (s :: rest).map (·.id)) := by
      rintro (hnone | hno)
      · rw [hd] at hnone; cases hnone
      · exact hno List.mem_cons_self
    refine ⟨fun id hid => ?_, fun x hx hxl => ?_, fun c a ha => hrefits.guarded letsGo (inv.data c a ha),
      (adoptAttachments_firm hm letsGo hturn inv.firm hadopt).mono ?_⟩
    · by_cases heq : id = s.id
      · rw [heq]; exact hstays
      · obtain ⟨e, he⟩ := (mem_entries u').1 hid
        rw [hrefits.others id heq] at he
        exact inv.mem id ((mem_entries u).2 ⟨e, he⟩)
    · have hne : x.id ≠ s.id := fun heq => hnot (List.mem_map.2 ⟨x, hx, heq⟩)
      rw [hrefits.others x.id hne]
      exact inv.todo x (List.mem_cons_of_mem s hx) hxl
    · rintro x (hx | rfl)
      · exact hx.imp_right fun hno hin => hno (List.mem_cons_of_mem _ hin)
      · exact .inr hnot
  · refine skip (propagate_skips hl stages.localPre_eq (fun d hd => ?_) h)
    by_contra hno
    obtain ⟨hle, hnone⟩ := not_or.1 hno
    obtain ⟨m, hm⟩ := Option.ne_none_iff_exists'.1 hnone
    exact hacts ⟨d, m, hd, hm, by simpa using hle⟩

end Stages

/-- A `reconcile` that empties no slot and gives no slot out too early leaves a pool without gaps. -/
theorem reconcile_dense (hl : Linked localDb) (hr : Linked remote)
    (h : reconcile env localDb remote = .ok (merged, delta)) (hdense : Dense localDb.attachments.keys)
    (hkept : Unemptied env localDb remote) (hready : Repairable env localDb remote) :
    Dense merged.attachments.keys := by
  obtain ⟨stages⟩ := reconcile_stages h
  have hn := collectLiveEntries_nodup hr stages.remotePre_eq
  have last : stages.PropagatedFirmly [] merged := by
    refine Loop.foldlM_inv_rest stages.PropagatedFirmly (fun s rest u u' hsuffix inv h => ?_) stages.propagate_eq
      (stages.repaired_propagatedFirmly hl hr hdense hkept hready)
    have hn' := hn.sublist (hsuffix.sublist.map _)
    exact stages.propagatedFirmly_step hl hr hn' (hsuffix.subset List.mem_cons_self) inv h
  rw [← keys_slots]
  exact last.firm.dense

end Falach
