import Falach.Sync.Readding
/-!
# The two attachment passes

What one round of each pass does, and from it what the passes leave of the named attachments of every entry. An entry
the passes rewrite has slots of its own afterwards, which no other entry can empty; the others have the slots they had,
which other entries can empty.
-/

namespace Falach

open Keepass Database

variable {env : Env} {u u' remote localDb : Database} {localPre : List Entry} {id : EntryId} {e m s : Entry}
  {c : AttachmentId}

/-! ## Added entries -/

theorem repairAdded_cases (hs : remote.entry s.id = some s) (h : repairAdded env remote localPre u s = .ok u') :
    (u' = u ∧ (s.id ∈ localPre.map (·.id) ∨ s.id ∉ u.entries ∨ s.attachments.keys = ∅)) ∨
      (s.id ∉ localPre.map (·.id) ∧ s.id ∈ u.entries ∧ ∃ named u₁,
        attachmentsNamed env .repairAdded remote s = .ok named ∧ addAll u s.id named = .ok u₁ ∧
        u' = bump u₁ s.id (env.now .repairAdded s.id)) := by
  unfold repairAdded at h
  split at h
  · exact .inl ⟨(Loop.pure_ok.1 h).symm, .inl ‹_›⟩
  rename_i hlocal
  rw [hs] at h
  obtain ⟨named, hnamed, h⟩ := Loop.bind_ok.1 h
  split at h
  · rename_i hempty
    refine .inl ⟨(Loop.pure_ok.1 h).symm, .inr (.inr ?_)⟩
    have hnames := (attachmentsNamed_ok hnamed).1
    rw [hempty, List.map_nil] at hnames
    refine Finset.eq_empty_of_forall_notMem fun n hn => ?_
    have := ((env.names .repairAdded s.id).mem_list _).2 hn
    rw [← hnames] at this; cases this
  split at h
  · exact .inl ⟨(Loop.pure_ok.1 h).symm, .inr (.inl ‹_›)⟩
  rename_i hthere
  obtain ⟨u₁, h₁, h⟩ := Loop.bind_ok.1 h
  exact .inr ⟨hlocal, not_not.1 hthere, named, u₁, hnamed, h₁, (Loop.pure_ok.1 h).symm⟩

/-- The numbers the remote entry `s` has under its names, in the order they are repaired in. -/
def stale (env : Env) (s : Entry) : List (Option AttachmentId) :=
  ((env.names .repairAdded s.id).list s.attachments.keys).map fun n => s.attachments.lookup n

theorem names_nodup {site : Site} {named : List (String × Value Bytes)}
    (h : attachmentsNamed env site remote s = .ok named) : (named.map Prod.fst).Nodup := by
  rw [(attachmentsNamed_ok h).1]
  exact (env.names site s.id).nodup_list _

/-- A round lets go of no slot but those the entry had. -/
theorem repairAdded_refits (hs : remote.entry s.id = some s) (h : repairAdded env remote localPre u s = .ok u') :
    Refits s.id (fun c => s.id ∉ localPre.map (·.id) ∧ ∃ e, u.entry s.id = some e ∧ e.Uses c) u u' := by
  rcases repairAdded_cases hs h with ⟨rfl, -⟩ | ⟨hlocal, hthere, named, u₁, hnamed, h₁, rfl⟩
  · exact .refl s.id _ u'
  · obtain ⟨e, he⟩ := (mem_entries u).1 hthere
    refine Refits.trans ((addAll_refits (names_nodup hnamed) he h₁).mono fun c hc => ?_) (.bump u₁ s.id _ _)
    obtain ⟨w, -, hc⟩ := hc
    exact ⟨hlocal, e, he, w.1, hc⟩

/-- An added entry has its attachments after its round, if its names could be given new slots. -/
theorem repairAdded_owns {t : Slots} (hs : remote.entry s.id = some s) (hlocal : s.id ∉ localPre.map (·.id))
    (he : u.entry s.id = some e) (hatt : e.attachments = s.attachments)
    (hready : Slots.readd s.id (slots u) [] (stale env s) = some t) (h : repairAdded env remote localPre u s = .ok u') :
    Owns u' s.id remote s.toVersion ∧ slots u' = t := by
  rcases repairAdded_cases hs h with ⟨rfl, hno⟩ | ⟨-, -, named, u₁, hnamed, h₁, rfl⟩
  · have hempty := (hno.resolve_left hlocal).resolve_left fun hno => hno ((mem_entries u').2 ⟨e, he⟩)
    rw [stale, hempty, Enumeration.list_empty, List.map_nil, Slots.readd, Option.some.injEq] at hready
    have none : ∀ n, s.attachments.lookup n = none := fun n => by
      rw [← Finmap.notMem_iff_lookup, ← Finmap.mem_keys, hempty]; exact Finset.notMem_empty n
    refine ⟨⟨e, he, fun n hn => by rw [hatt]; exact hn, fun n c hc => ?_⟩, hready⟩
    rw [none n] at hc; cases hc
  · have hstale : (named.map fun w => e.attachments.lookup w.1) = stale env s := by
      rw [stale, ← (attachmentsNamed_ok hnamed).1, List.map_map, hatt]; rfl
    rw [← hstale] at hready
    obtain ⟨howns, hslots⟩ := addAll_owns hnamed he (fun n hn => by rw [hatt]; exact hn) hready h₁
    exact ⟨howns.bump _, hslots⟩

/-- Otherwise it lacks a name. -/
theorem repairAdded_loses (hs : remote.entry s.id = some s) (hlocal : s.id ∉ localPre.map (·.id))
    (he : u.entry s.id = some e) (hatt : e.attachments = s.attachments)
    (hstuck : Slots.readd s.id (slots u) [] (stale env s) = none) (h : repairAdded env remote localPre u s = .ok u') :
    ∃ n ∈ s.attachments, ∃ e', u'.entry s.id = some e' ∧ n ∉ e'.attachments := by
  rcases repairAdded_cases hs h with ⟨rfl, hno⟩ | ⟨-, -, named, u₁, hnamed, h₁, rfl⟩
  · have hempty := (hno.resolve_left hlocal).resolve_left fun hno => hno ((mem_entries u').2 ⟨e, he⟩)
    rw [stale, hempty, Enumeration.list_empty, List.map_nil, Slots.readd] at hstuck
    cases hstuck
  · have hstale : (named.map fun w => e.attachments.lookup w.1) = stale env s := by
      rw [stale, ← (attachmentsNamed_ok hnamed).1, List.map_map, hatt]; rfl
    rw [← hstale] at hstuck
    have nothing : ∀ w ∈ named, e.attachments.lookup w.1 =
        (e.attachments.lookup w.1).filter (· ∉ ([] : List AttachmentId)) := fun w _ => by
      cases e.attachments.lookup w.1 <;> rfl
    obtain ⟨w, hw, e', he', hlost⟩ :=
      addAll_loses (fun n => e.attachments.lookup n) (names_nodup hnamed) he nothing hstuck h₁
    obtain ⟨e'', he'', hsame⟩ := entry_bump he' (env.now .repairAdded s.id)
    refine ⟨w.1, ?_, e'', he'', Finmap.notMem_iff_lookup.2 (by rw [hsame]; exact hlost)⟩
    have : w.1 ∈ named.map Prod.fst := List.mem_map_of_mem hw
    rwa [(attachmentsNamed_ok hnamed).1, (env.names _ s.id).mem_list, Finmap.mem_keys] at this

/-! ## Entries on both sides -/

theorem bytesOf_mem (db : Database) {v : Version} {n : String} : n ∈ bytesOf db v ↔ n ∈ v.attachments :=
  Finmap.mem_mapVals

/-- What the pass compares is equal exactly if the named bytes are. -/
theorem bytesByName_eq_iff {site : Site} {db : Database} {named named' : List (String × Value Bytes)}
    (h : attachmentsNamed env site remote s = .ok named) (h' : attachmentsNamed env site db e = .ok named') :
    bytesByName named = bytesByName named' ↔ bytesOf remote s.toVersion = bytesOf db e.toVersion := by
  rw [← bytesByName_eq h, ← bytesByName_eq h', (Finmap.mapVals_injective (Option.some_injective Bytes)).eq_iff]

theorem mem_bytesByName {site : Site} {named : List (String × Value Bytes)} {n : String}
    (h : attachmentsNamed env site remote s = .ok named) : n ∈ bytesByName named ↔ n ∈ s.attachments := by
  rw [← bytesOf_mem remote, ← bytesByName_eq h, Finmap.mem_mapVals]

theorem removeAttachmentByName_refits {name : String} (he : u.entry id = some e)
    (h : u.removeAttachmentByName id name = .ok u') : Refits id (fun c => e.attachments.lookup name = some c) u u' := by
  obtain ⟨e', m, he', -, others, -, hpool⟩ := removeAttachmentByName_ok h
  rw [he, Option.some.injEq] at he'; subst he'
  exact Refits.of_drains others (fun c a ha => ha) hpool

/-- The names are taken from the entry, which lets go of their slots. -/
theorem removeAll_ok {names : List String} (he : u.entry id = some e)
    (h : names.foldlM (fun db name => removeAttachmentByName db id name) u = Except.ok u') :
    (∃ m, u'.entry id = some { e with attachments := m } ∧
      ∀ n, m.lookup n = if n ∈ names then none else e.attachments.lookup n) ∧
      Refits id (fun c => ∃ n ∈ names, e.attachments.lookup n = some c) u u' := by
  induction names generalizing u e with
  | nil =>
    cases h
    exact ⟨⟨e.attachments, he, fun n => by simp⟩, .refl id _ _⟩
  | cons name names ih =>
    obtain ⟨u₁, h₁, h⟩ := Loop.foldlM_cons_ok.1 h
    obtain ⟨e', m₁, he', he₁, -, hm₁, -⟩ := removeAttachmentByName_ok h₁
    rw [he, Option.some.injEq] at he'; subst he'
    obtain ⟨⟨m, hu', hm⟩, hrest⟩ := ih he₁ h
    refine ⟨⟨m, hu', fun n => ?_⟩, ((removeAttachmentByName_refits he h₁).mono fun c hc => ?_).trans
      (hrest.mono fun c hc => ?_)⟩
    · rw [hm]
      change (if n ∈ names then none else m₁.lookup n) = _
      rw [hm₁]
      by_cases hn : n ∈ names
      · rw [if_pos hn, if_pos (List.mem_cons_of_mem name hn)]
      · by_cases hname : n = name
        · rw [if_neg hn, if_pos hname, if_pos (by rw [hname]; exact List.mem_cons_self)]
        · rw [if_neg hn, if_neg hname, if_neg (by simp [hn, hname])]
    · exact ⟨name, List.mem_cons_self, hc⟩
    · obtain ⟨n, hn, hc⟩ := hc
      change m₁.lookup n = some c at hc
      rw [hm₁] at hc
      split at hc
      · cases hc
      · exact ⟨n, List.mem_cons_of_mem name hn, hc⟩

/-- No name that stays loses its slot to one that goes: another entry keeps it. -/
def Fits (u : Database) (id : EntryId) (m s : Version) : Prop :=
  ∀ n n' c, m.attachments.lookup n = some c → m.attachments.lookup n' = some c → n ∉ s.attachments →
    n' ∈ s.attachments → ∃ a r, u.attachments.lookup c = some a ∧ r ∈ a.entries ∧ r.1 ≠ id

/-- A round in which the pass acts: nothing happens if the bytes are the same already. -/
theorem adoptAttachments_cases (hm : u.entry id = some m) (h : adoptAttachments env remote s m u id = .ok u') :
    (u' = u ∧ bytesOf u m.toVersion = bytesOf remote s.toVersion) ∨
      (bytesOf u m.toVersion ≠ bytesOf remote s.toVersion ∧ Refits id m.Uses u u' ∧
        (Fits u id m.toVersion s.toVersion → Owns u' id remote s.toVersion)) := by
  simp only [adoptAttachments, Loop.bind_ok] at h
  obtain ⟨wanted, hwanted, held, hheld, h⟩ := h
  have hsame := bytesByName_eq_iff hwanted hheld
  split at h
  · rename_i heq
    exact .inl ⟨(Loop.pure_ok.1 h).symm, (hsame.1 heq).symm⟩
  rename_i hne
  obtain ⟨u₁, h₁, h⟩ := Loop.bind_ok.1 h
  obtain ⟨u₂, h₂, h⟩ := Loop.bind_ok.1 h
  obtain rfl := Loop.pure_ok.1 h
  obtain ⟨⟨m₁, hu₁, hm₁⟩, hremoved⟩ := removeAll_ok hm h₁
  -- the names only the local side has are the ones that are taken off
  have goes : ∀ n, n ∈ (Enumeration.sorted.list (bytesByName held).keys).filter (fun name =>
    name ∉ bytesByName wanted) ↔
      n ∈ m.attachments ∧ n ∉ s.attachments := fun n => by
    rw [List.mem_filter, Enumeration.sorted.mem_list, Finmap.mem_keys, mem_bytesByName hheld, decide_eq_true_iff,
      mem_bytesByName hwanted]
  refine .inr ⟨fun heq => hne (hsame.2 heq.symm), ?_, fun hfits => ?_⟩
  · refine ((hremoved.mono fun c hc => ?_).trans ((addAll_refits (names_nodup hwanted) hu₁ h₂).mono fun c hc =>
      ?_)).trans
      (.bump u₂ id _ _)
    · obtain ⟨n, -, hc⟩ := hc
      exact ⟨n, hc⟩
    · obtain ⟨w, -, hc⟩ := hc
      change m₁.lookup w.1 = some c at hc
      rw [hm₁] at hc
      split at hc
      · cases hc
      · exact ⟨w.1, hc⟩
  · -- the slots of the names that stay are taken, so none of them is given out
    have taken : ∀ c, some c ∈ (wanted.map fun w => m₁.lookup w.1) → c ∉ ([] : List AttachmentId) → c ∈ slots u₁ := by
      intro c hc _
      obtain ⟨w, hw, hc⟩ := List.mem_map.1 hc
      rw [hm₁] at hc
      split at hc
      · cases hc
      have hstays : w.1 ∈ s.attachments := by
        have : w.1 ∈ wanted.map Prod.fst := List.mem_map_of_mem hw
        rwa [(attachmentsNamed_ok hwanted).1, (env.names _ s.id).mem_list, Finmap.mem_keys] at this
      obtain ⟨hnames, heach⟩ := attachmentsNamed_ok hheld
      have hw' : w.1 ∈ held.map Prod.fst := by
        rw [hnames, (env.names _ m.id).mem_list, Finmap.mem_keys]
        exact Finmap.mem_of_lookup_eq_some hc
      obtain ⟨x, hx, hxw⟩ := List.mem_map.1 hw'
      obtain ⟨c', a, hc', ha, -⟩ := heach x hx
      rw [hxw, hc, Option.some.injEq] at hc'; subst hc'
      have hmem : ∀ {a'}, u₁.attachments.lookup c = some a' → c ∈ slots u₁ := fun ha' =>
        Finmap.mem_mapVals.2 (Finmap.mem_of_lookup_eq_some ha')
      -- a slot shared with a name that is taken off is held by another entry, too
      by_cases hshared : ∃ n ∈ (Enumeration.sorted.list (bytesByName held).keys).filter
          (fun name => name ∉ bytesByName wanted), m.attachments.lookup n = some c
      · obtain ⟨n, hn, hnc⟩ := hshared
        obtain ⟨a', r, ha', hr, hother⟩ := hfits n w.1 c hnc hc ((goes n).1 hn).2 hstays
        obtain ⟨a'', ha'', -⟩ := hremoved.held c a' r ha' hr hother
        exact hmem ha''
      · obtain ⟨a', ha', -⟩ := hremoved.untouched c a ha hshared
        exact hmem ha'
    obtain ⟨t, ht⟩ := Slots.readd_of_taken taken
    refine Owns.bump (addAll_owns hwanted hu₁ (fun n hnone => ?_) ht h₂).1 _
    change m₁.lookup n = none
    rw [hm₁]
    by_cases hmem : n ∈ m.attachments
    · rw [if_pos ((goes n).2 ⟨hmem, Finmap.notMem_iff_lookup.2 hnone⟩)]
    · rw [Finmap.notMem_iff_lookup.1 hmem, ite_self]

theorem lookup_preLastModification (hl : Linked localDb) {site : Site}
    (hw : collectLiveEntries env site localDb = .ok localPre) (id : EntryId) :
    (preLastModification localPre).lookup id = (localDb.entry id).map (·.times.lastModification) := by
  have own : ∀ x ∈ localPre, localDb.entry x.id = some x := fun x => (mem_collectLiveEntries hl hw).1
  obtain ⟨inside, outside⟩ := Finmap.lookup_foldl_insert (fun x : Entry => x.id) (·.times.lastModification)
    (fun x hx y hy hxy => by
      have heq := own x hx
      rw [hxy, own y hy, Option.some.injEq] at heq
      rw [heq]) ∅
  cases hd : localDb.entry id with
  | some d =>
    obtain rfl := hl.entry_id hd
    exact inside d ((mem_collectLiveEntries hl hw).2 hd)
  | none =>
    refine outside id fun hin => ?_
    rw [mem_ids_collectLiveEntries hl hw] at hin
    exact Finmap.notMem_iff_lookup.2 hd hin

/-- The pass acts on an entry that `remote` has the strictly newer version of. -/
theorem propagate_acts {d : Entry} (hl : Linked localDb) {site : Site}
    (hw : collectLiveEntries env site localDb = .ok localPre) (hs : remote.entry s.id = some s)
    (hd : localDb.entry s.id = some d) (hm : u.entry s.id = some m)
    (hnewer : timeLe s.times.lastModification d.times.lastModification = false)
    (h : propagate env remote localPre u s = .ok u') : adoptAttachments env remote s m u s.id = .ok u' := by
  unfold propagate at h
  rw [lookup_preLastModification hl hw, hd, Option.map_some] at h
  simp only [hs, hm, hnewer] at h
  exact h

/-- It leaves the others as they are. -/
theorem propagate_skips (hl : Linked localDb) {site : Site} (hw : collectLiveEntries env site localDb = .ok localPre)
    (hno : ∀ d, localDb.entry s.id = some d →
      timeLe s.times.lastModification d.times.lastModification = true ∨ u.entry s.id = none)
    (h : propagate env remote localPre u s = .ok u') : u' = u := by
  unfold propagate at h
  rw [lookup_preLastModification hl hw] at h
  cases hd : localDb.entry s.id with
  | none =>
    rw [hd] at h
    exact (Loop.pure_ok.1 h).symm
  | some d =>
    simp only [hd, Option.map_some] at h
    split at h
    · exact (Loop.pure_ok.1 h).symm
    rename_i hnewer
    rcases hno d hd with hle | hnone
    · exact absurd hle hnewer
    · rw [hnone] at h
      split at h
      · rename_i heq; cases heq
      · exact (Loop.pure_ok.1 h).symm

end Falach
