import Falach.Keepass.Pool
/-!
# Removals that go through

`EntryMut::remove` expects every attachment of the entry in the pool. An entry that goes can empty a slot that the next
one still uses, so whether a series of removals goes through depends on the back-references of the slots they share.
-/

namespace Keepass

/-- The version has slot `c` under at most one name. -/
def Version.UsesOnce (v : Version) (c : AttachmentId) : Prop :=
  ∀ n n', v.attachments.lookup n = some c → v.attachments.lookup n' = some c → n = n'

/-- The entries that `D` says can let go of their slots one after the other, in any order. A slot is there until the
last of them: a back-reference of an entry that stays keeps it, or each has it under one name (`O`) and either no other
of them uses it or each has a back-reference of its own. -/
def Lasts (D O : EntryId → AttachmentId → Prop) (p : Pool) : Prop :=
  ∀ x c, D x c → ∃ a, p.lookup c = some a ∧ ((∃ r ∈ a.entries, ¬ D r.1 c) ∨
    ∀ y, D y c → O y c ∧ ((∃ r ∈ a.entries, r.1 = y) ∨ ∀ z, D z c → z = y))

variable {D D' G O O' : EntryId → AttachmentId → Prop} {p q : Pool}

/-- When some of the entries have let go of their slots, the others still can. -/
theorem Lasts.drains (h : Lasts D O p) (hp : Drains G p q) (hG : ∀ x c, G x c → D x c)
    (rest : ∀ x c, D' x c ↔ D x c ∧ ¬ G x c) (once : ∀ x c, D' x c → O x c → O' x c) : Lasts D' O' q := by
  intro y c hy
  obtain ⟨hD, hnot⟩ := (rest y c).1 hy
  obtain ⟨a, ha, hcases⟩ := h y c hD
  by_cases hgone : ∃ x, G x c
  · obtain ⟨x, hx⟩ := hgone
    rcases hcases with ⟨r, hr, hno⟩ | hall
    · obtain ⟨a', ha', -, hmem⟩ := hp.left c a ha (.inr ⟨r, hr, fun hg => hno (hG r.1 c hg)⟩)
      exact ⟨a', ha', .inl ⟨r, (hmem r).2 ⟨hr, fun hg => hno (hG r.1 c hg)⟩, fun hd => hno ((rest r.1 c).1 hd).1⟩⟩
    -- `x` is another of them, so each that is left has a back-reference of its own
    have backed : ∀ z, D' z c → O z c ∧ ∃ r ∈ a.entries, r.1 = z := by
      intro z hz
      obtain ⟨hDz, hnz⟩ := (rest z c).1 hz
      obtain ⟨ho, hr⟩ := hall z hDz
      exact ⟨ho, hr.resolve_right fun honly => hnz (honly x (hG x c hx) ▸ hx)⟩
    obtain ⟨-, r, hr, rfl⟩ := backed y hy
    obtain ⟨a', ha', -, hmem⟩ := hp.left c a ha (.inr ⟨r, hr, hnot⟩)
    refine ⟨a', ha', .inr fun z hz => ?_⟩
    obtain ⟨ho, r', hr', rfl⟩ := backed z hz
    exact ⟨once _ c hz ho, .inl ⟨r', (hmem r').2 ⟨hr', ((rest _ c).1 hz).2⟩, rfl⟩⟩
  · obtain ⟨a', ha', -, hmem⟩ := hp.left c a ha (.inl fun x hx => hgone ⟨x, hx⟩)
    have kept : ∀ r ∈ a.entries, r ∈ a'.entries := fun r hr => (hmem r).2 ⟨hr, fun hg => hgone ⟨r.1, hg⟩⟩
    refine ⟨a', ha', ?_⟩
    rcases hcases with ⟨r, hr, hno⟩ | hall
    · exact .inl ⟨r, kept r hr, fun hd => hno ((rest r.1 c).1 hd).1⟩
    · refine .inr fun z hz => ?_
      obtain ⟨ho, hcases⟩ := hall z ((rest z c).1 hz).1
      refine ⟨once z c hz ho, hcases.imp (fun ⟨r, hr, hrz⟩ => ⟨r, kept r hr, hrz⟩) fun honly w hw => ?_⟩
      exact honly w ((rest w c).1 hw).1

namespace Database

variable {env : Env} {db db' t : Database} {cut : Set GroupId} {Out : EntryId → Prop} {id : EntryId}

/-- The entries `Out` of the database can be removed one after the other, in any order. -/
def Ready (Out : EntryId → Prop) (db : Database) : Prop :=
  Lasts (fun x c => Out x ∧ ∃ e, db.entry x = some e ∧ e.Uses c) (fun x c => ∀ e, db.entry x = some e → e.UsesOnce c)
    db.attachments

/-- When some of them are gone, the others still can. -/
theorem Ready.clears (h : Ready Out db) (hc : Clears db db')
    (gone : ∀ x e, db.entry x = some e → db'.entry x = none → Out x) : Ready Out db' := by
  refine Lasts.drains h hc.pool (fun x c => ?_) (fun x c => ?_) fun x c _ honce e' he' n n' hn hn' => ?_
  · rintro ⟨hnone, e, he, hu⟩
    exact ⟨gone x e he hnone, e, he, hu⟩
  · constructor
    · rintro ⟨hx, e', he', n, hn⟩
      obtain ⟨e, he, hatt⟩ := hc.entry x e' he'
      refine ⟨⟨hx, e, he, n, hatt ▸ hn⟩, fun hgone => ?_⟩
      rw [hgone.1] at he'; cases he'
    · rintro ⟨⟨hx, e, he, n, hn⟩, hstays⟩
      cases he' : db'.entry x with
      | none => exact absurd ⟨he', e, he, n, hn⟩ hstays
      | some e' =>
        obtain ⟨e₀, he₀, hatt⟩ := hc.entry x e' he'
        rw [he, Option.some.injEq] at he₀; subst he₀
        exact ⟨hx, e', rfl, n, by rw [hatt]; exact hn⟩
  · obtain ⟨e, he, hatt⟩ := hc.entry x e' he'
    rw [hatt] at hn hn'
    exact honce e he n n' hn hn'

/-! ## One entry -/

/-- The slots of the names can be let go of one by one: each is there, and stays until its last name. -/
def Detachable (id : EntryId) (e : Version) (names : List String) (db : Database) : Prop :=
  ∀ n ∈ names, ∃ c a, e.attachments.lookup n = some c ∧ db.attachments.lookup c = some a ∧
    ((∃ r ∈ a.entries, r.1 ≠ id) ∨ ∀ n' ∈ names, e.attachments.lookup n' = some c → n' = n)

theorem Detachable.tail {e : Version} {name : String} {names : List String} {c : AttachmentId}
    (h : Detachable id e (name :: names) db) (hn : name ∉ names) (hc : e.attachments.lookup name = some c) :
    Detachable id e names (db.dropReference id c) := by
  have drains := dropReference_drains db id c
  intro n hm
  obtain ⟨c', a, hc', ha, hcases⟩ := h n (List.mem_cons_of_mem name hm)
  have other : (∃ r ∈ a.entries, r.1 ≠ id) ∨ c' ≠ c := by
    by_cases hcc : c' = c
    · subst hcc
      exact hcases.imp_right fun honly => absurd (honly name List.mem_cons_self hc ▸ hm) hn
    · exact .inr hcc
  obtain ⟨a', ha', -, hmem⟩ := drains.left c' a ha
    (other.symm.imp (fun hne x hx => hne hx.2) fun ⟨r, hr, hne⟩ => ⟨r, hr, fun hx => hne hx.1⟩)
  refine ⟨c', a', hc', ha', hcases.imp (fun ⟨r, hr, hne⟩ => ⟨r, (hmem r).2 ⟨hr, fun hx => hne hx.1⟩, hne⟩) ?_⟩
  exact fun honly n' hn' => honly n' (List.mem_cons_of_mem name hn')

theorem detach_total (db : Database) (id : EntryId) (e : Version) {names : List String} (hn : names.Nodup)
    (h : Detachable id e names db) : ∃ t, names.foldlM (fun (db : Database) name => do
      let att ← expect (e.attachments.lookup name)
      let _ ← expect (db.attachments.lookup att)
      return db.dropReference id att) db = Except.ok t ∧ SameObjects db t := by
  refine (Loop.foldlM_total_rest (fun rest t => Detachable id e rest t ∧ SameObjects db t)
    (fun name rest t hsuf ht => ?_) ⟨h, .refl db⟩).imp fun t ht => ⟨ht.1, ht.2.2⟩
  obtain ⟨c, a, hc, ha, -⟩ := ht.1 name List.mem_cons_self
  refine ⟨t.dropReference id c, Loop.bind_ok.2 ⟨c, expect_ok.2 hc, Loop.bind_ok.2 ⟨a, expect_ok.2 ha, rfl⟩⟩,
    ht.1.tail ?_ hc, ht.2.trans (.dropReference t id c)⟩
  exact (List.nodup_cons.1 (hn.sublist hsuf.sublist)).1

theorem removeEntry_total (env : Env) {e : Entry} (hl : LinkedBut cut db) (ready : Ready Out db) (hout : Out id)
    (he : db.entry id = some e) : ∃ db', removeEntry env db id = .ok db' := by
  set released := (db.releaseEntryIcon id none e.icon).releaseHistoryIcons id (e.history.getD []) with hreleased
  have same : SameObjects db released :=
    (SameObjects.releaseEntryIcon db id none e.icon).trans (.releaseHistoryIcons _ id _)
  have pool : released.attachments = db.attachments := by
    rw [hreleased, attachments_releaseHistoryIcons, attachments_releaseEntryIcon]
  obtain ⟨t, ht, dropped⟩ := detach_total released id e.toVersion
    ((env.names .namesToDetach id).nodup_list e.attachments.keys) fun n hn => by
      obtain ⟨c, hc⟩ := Finmap.mem_iff.1 (Finmap.mem_keys.1 (((env.names .namesToDetach id).mem_list _).1 hn))
      obtain ⟨a, ha, hcases⟩ := ready id c ⟨hout, e, he, n, hc⟩
      refine ⟨c, a, hc, by rw [pool]; exact ha, ?_⟩
      rcases hcases with ⟨r, hr, hno⟩ | hall
      · exact .inl ⟨r, hr, fun hid => hno (hid ▸ ⟨hout, e, he, n, hc⟩)⟩
      · exact .inr fun n' _ hc' => (hall id ⟨hout, e, he, n, hc⟩).1 e he n' n hc' hc
  obtain ⟨g, hg⟩ := (mem_groups db).1 (hl.home he)
  have hg : t.group e.parent = some g := ((same.trans dropped).group_eq e.parent).trans hg
  have hg : Database.group { t with entries := t.entries.erase id } e.parent = some g := hg
  apply Exists.intro
  unfold removeEntry
  exact Loop.bind_ok.2 ⟨e, expect_ok.2 he, Loop.bind_ok.2 ⟨t, ht, Loop.bind_ok.2 ⟨g, expect_ok.2 hg, rfl⟩⟩⟩

/-! ## A group with what is below it -/

/-- What a removal takes along was below the group. -/
theorem Felled.out {x : GroupId} {j : EntryId} {e : Entry} (h : Felled {x} db db')
    (hout : ∀ j p, db.homeOf j = some p → Below db.parentOf x p → Out j) (he : db.entry j = some e)
    (hnone : db'.entry j = none) : Out j := by
  by_contra hno
  rw [h.kept j fun p hp y hy hb => hno (hout j p hp (Set.mem_singleton_iff.1 hy ▸ hb)), he] at hnone
  cases hnone

/-- The entries of the group are removed one by one. -/
theorem removeEntries_total (env : Env) {x : GroupId} {l : List EntryId}
    (hout : ∀ j, db.homeOf j = some x → Out j) {u : Database} (hu : Emptied cut x db l u) (hready : Ready Out u)
    (hn : l.Nodup) (hmem : ∀ j ∈ l, db.homeOf j = some x) :
    ∃ t, l.foldlM (fun db e => if e ∈ db.entries then removeEntry env db e else return db) u = Except.ok t ∧
      Emptied cut x db [] t ∧ Ready Out t := by
  refine Loop.foldlM_total_rest (fun rest t => Emptied cut x db rest t ∧ Ready Out t) (fun j rest t hsuf ht => ?_)
    ⟨hu, hready⟩
  obtain ⟨ht, hready⟩ := ht
  have hj : db.homeOf j = some x := hmem j (hsuf.subset List.mem_cons_self)
  have hjr : j ∉ rest := (List.nodup_cons.1 (hn.sublist hsuf.sublist)).1
  obtain ⟨e, he, -⟩ := homeOf_eq_some.1 hj
  have het : t.entry j = some e := (ht.kept j fun _ => List.mem_cons_self).trans he
  obtain ⟨t', ht'⟩ := removeEntry_total env ht.linked hready (hout j hj) het
  rw [if_pos ((mem_entries t).2 ⟨e, het⟩)]
  refine ⟨t', ht', removeEntry_emptied ht hjr hj ht', hready.clears (removeEntry_clears ht') fun y e' he' hnone => ?_⟩
  by_cases hyj : y = j
  · rw [hyj]; exact hout j hj
  · obtain ⟨_, -, -, hentries, -⟩ := removeEntry_ok ht'
    rw [Database.entry, hentries, Finmap.lookup_erase_ne hyj] at hnone
    rw [Database.entry, hnone] at he'; cases he'

theorem Ready.unlist {x p : GroupId} {icon : Option Icon} (ready : Ready Out db) :
    Ready Out (((db.releaseGroupIcon x icon).modifyGroup x fun g => { g with icon := none }).modifyGroup p
      fun g => { g with groups := g.groups.erase x }) := by
  have released := SameObjects.releaseGroupIcon db x icon
  refine ready.clears (.of_kept ?_ fun j => congrArg _ (released.entry_eq j)) fun j e he hnone => ?_
  · rw [attachments_modifyGroup, attachments_modifyGroup]; unfold releaseGroupIcon; split <;> rfl
  · rw [entry_modifyGroup, entry_modifyGroup, released.entry_eq, he] at hnone; cases hnone

/-- A group can be removed if the entries below it can. A linked tree is no deeper than it has groups, so the recursion
ends. -/
theorem removeGroup_total (env : Env) {n k : Nat} {x : GroupId} (hl : LinkedBut cut db)
    (hcut : ∀ d ∈ cut, ¬ Below db.parentOf x d) (hroot : x ≠ db.root) (hx : x ∈ db.groups)
    (hk : Depth db.parentOf db.root k x) (hn : db.groups.keys.card < n + k + 1) (ready : Ready Out db)
    (hout : ∀ j p, db.homeOf j = some p → Below db.parentOf x p → Out j) : ∃ db', removeGroup env n db x = .ok db' := by
  induction n generalizing db cut x k with
  | zero =>
    -- without fuel the group would be deeper than there are groups
    have := hk.lt_card hl.root_parent fun z hz => Finmap.mem_keys.2 (by
      rcases Below.iff_parent.1 hz with rfl | ⟨_, hp, -⟩
      · exact hl.root_mem
      · exact mem_groups_of_parentOf hp)
    omega
  | succ n ih =>
    obtain ⟨g, hg⟩ := (mem_groups db).1 hx
    obtain ⟨p, hp⟩ := hl.parent_some hx hroot
    have hgp : g.parent = some p := (parentOf_of_group hg).symm.trans hp
    have listed : ∀ j, j ∈ (env.ids .childEntries).list g.entries ↔ db.homeOf j = some x := fun j => by
      rw [(env.ids .childEntries).mem_list, hl.child_entries hg j]
    have e₀ : Emptied (insert x cut) x db _ _ := unlisted_emptied hl hg hgp fun j hj => (listed j).2 hj
    obtain ⟨t₁, h₁, e₁, ready₁⟩ := removeEntries_total env (fun j hj => hout j x hj .self) e₀ ready.unlist
      ((env.ids .childEntries).nodup_list _) fun j hj => (listed j).1 hj
    obtain ⟨g₁, hg₁⟩ := (mem_groups t₁).1 ((e₁.mem x).2 hx)
    have children : ∀ c, c ∈ (env.ids .childGroups).list g₁.groups ↔ db.parentOf c = some x := fun c => by
      rw [(env.ids .childGroups).mem_list, e₁.children hl hcut hx hg₁]
    -- the children done so far are felled and nothing else is; each child is one deeper
    obtain ⟨t₂, h₂, -⟩ := Loop.foldlM_total_rest (f := fun (db : Database) c =>
      if c ∈ db.groups then removeGroup env n db c else return db)
      (l := (env.ids .childGroups).list g₁.groups) (s := t₁)
      (fun rest t => LinkedBut (insert x cut) t ∧ Felled {c | db.parentOf c = some x ∧ c ∉ rest} t₁ t ∧ Ready Out t)
      (fun c rest t hsuf ht => by
        obtain ⟨htl, ht, htr⟩ := ht
        have hcr : c ∉ rest :=
          (List.nodup_cons.1 (((env.ids .childGroups).nodup_list g₁.groups).sublist hsuf.sublist)).1
        have hc : db.parentOf c = some x := (children c).1 (hsuf.subset List.mem_cons_self)
        obtain ⟨hct, hcroot, hcutc, below⟩ := e₁.next_child hl hcut hx ht hc
        have links : ∀ z q, t.parentOf z = some q → db.parentOf z = some q := fun z q hz => by
          rw [← e₁.parentOf, ← ht.parentOf z (mem_groups_of_parentOf hz)]; exact hz
        have troot : t.root = db.root := ht.root.trans e₁.root
        obtain ⟨k', hk'⟩ := (htl.rooted hct).depth
        obtain rfl : k' = k + 1 := (hk'.mono links).unique (by rw [troot]; exact hl.root_parent)
          (by rw [troot]; exact .child hc hk)
        have card : t.groups.keys.card ≤ db.groups.keys.card := Finset.card_le_card fun i hi => by
          rw [Finmap.mem_keys] at hi ⊢
          exact (e₁.mem i).1 ((ht.mem i).1 hi).1
        have home : ∀ j p, t.homeOf j = some p → db.homeOf j = some p := by
          intro j q hj
          obtain ⟨e, he, -⟩ := homeOf_eq_some.1 hj
          rcases ht.gone_or_kept j with hgone | ⟨hsame, -⟩
          · rw [hgone] at he; cases he
          by_cases hjx : db.homeOf j = some x
          · rw [hsame, e₁.gone j hjx List.not_mem_nil] at he; cases he
          · rw [← homeOf_congr (hsame.trans (e₁.kept j fun h => absurd h hjx))]; exact hj
        have goes : ∀ j q, t.homeOf j = some q → Below t.parentOf c q → Out j := fun j q hj hb =>
          hout j q (home j q hj) ((Below.child hc .self).trans (below q hb))
        obtain ⟨t', ht'⟩ := ih htl hcutc hcroot hct hk' (by omega) htr goes
        rw [if_pos hct]
        obtain ⟨htl', hf⟩ := removeGroup_felled htl hcutc hcroot ht'
        refine ⟨t', ht', htl', ht.child hcr htl hc hf, htr.clears (removeGroup_clears ht') fun j e he hnone => ?_⟩
        exact hf.out goes he hnone)
      ⟨e₁.linked, .nothing (fun c hc => (children c).2 hc) t₁, ready₁⟩
    apply Exists.intro
    unfold removeGroup
    refine Loop.bind_ok.2 ⟨g, expect_ok.2 hg, Loop.bind_ok.2 ⟨t₁, ?_, Loop.bind_ok.2 ⟨g₁, expect_ok.2 hg₁,
      Loop.bind_ok.2 ⟨t₂, h₂, rfl⟩⟩⟩⟩
    rw [hgp]
    exact h₁

/-- The queued groups are removed one after the other. -/
theorem deleteGroups_total (env : Env) {toDelete : List GroupId} (hl : Linked db) (hn : toDelete.Nodup)
    (hmem : ∀ x ∈ toDelete, x ∈ db.groups ∧ x ≠ db.root) (ready : Ready Out db)
    (hout : ∀ x ∈ toDelete, ∀ j p, db.homeOf j = some p → Below db.parentOf x p → Out j) :
    ∃ db', deleteGroups env toDelete db = .ok db' ∧ Linked db' ∧ Felled {x | x ∈ toDelete} db db' := by
  obtain ⟨t, ht, hl', hf, -⟩ := Loop.foldlM_total_rest (l := toDelete.reverse) (s := db)
    (f := fun (db : Database) id =>
      if id ∈ db.groups then db.removeGroup env (db.groups.keys.card + 1) id else return db)
    (fun rest u => Linked u ∧ Felled {x | x ∈ toDelete ∧ x ∉ rest} db u ∧ Ready Out u)
    (fun x rest u hsuf hu => by
      obtain ⟨hul, hu, hready⟩ := hu
      have hx : x ∈ toDelete := List.mem_reverse.1 (hsuf.subset List.mem_cons_self)
      have hxr : x ∉ rest := (List.nodup_cons.1 ((List.nodup_reverse.2 hn).sublist hsuf.sublist)).1
      obtain ⟨hxdb, hroot⟩ := hmem x hx
      have step : ∀ {u'}, (if x ∈ u.groups then u.removeGroup env (u.groups.keys.card + 1) x else return u) = .ok u' →
          Linked u' ∧ Felled {x | x ∈ toDelete ∧ x ∉ rest} db u' := deleteGroup_felled hx hxr hxdb hroot hul hu
      by_cases hxu : x ∈ u.groups
      · rw [if_pos hxu] at step ⊢
        obtain ⟨k, hk⟩ := (hul.rooted hxu).depth
        have goes : ∀ j q, u.homeOf j = some q → Below u.parentOf x q → Out j := by
          intro j q hj hb
          obtain ⟨e, he, -⟩ := homeOf_eq_some.1 hj
          have hsame := ((hu.gone_or_kept j).resolve_left fun hgone => by rw [hgone] at he; cases he).1
          refine hout x hx j q ((homeOf_congr hsame).symm.trans hj) (hb.mono fun z r hz => ?_)
          rw [← hu.parentOf z (mem_groups_of_parentOf hz)]; exact hz
        obtain ⟨u', hu'⟩ := removeGroup_total env (n := u.groups.keys.card + 1) hul (fun _ hd => hd.elim)
          (hu.root ▸ hroot) hxu hk (by omega) hready goes
        obtain ⟨hl', hf'⟩ := step hu'
        have hf := (removeGroup_felled hul (fun _ hd => hd.elim) (hu.root ▸ hroot) hu').2
        exact ⟨u', hu', hl', hf', hready.clears (removeGroup_clears hu') fun j e he hnone => hf.out goes he hnone⟩
      · rw [if_neg hxu] at step ⊢
        obtain ⟨hl', hf'⟩ := step rfl
        exact ⟨u, rfl, hl', hf', hready⟩)
    ⟨hl, felled_nothing toDelete db, ready⟩
  exact ⟨t, ht, hl', by simpa using hf⟩

end Database

end Keepass
