import Falach.Sync.Devices
/-!
# No lost update

A device uploads over a version only if it has folded that version in: either its pointer still names the current
version, and then that is what it last synced, or it has just fetched and reconciled that version. The one upload
that names no version comes after a HEAD that found no object.
-/

namespace Falach

open Keepass Program

namespace Shared

/-- `v` is the version of the object now. -/
def Current (g : Shared) (v : ObjectVersion) : Prop := ∃ s, g.object = some s ∧ s.version = v

end Shared

/-- The upload went over the version its device had last folded in, or over nothing it could have known of. -/
def Put.Good (emptyAtStart : Prop) (p : Put) : Prop :=
  (∃ v, p.replaced = some v ∧ p.last = some v ∧ v ∈ p.folded) ∨ (p.ifMatch = none ∧ p.sawEmpty = true ∧ emptyAtStart)

/-- What holds of the object. -/
structure SharedInv (emptyAtStart : Prop) (g : Shared) : Prop where
  used : ∀ s, g.object = some s → s.version ∈ g.used
  present : g.object = none → emptyAtStart
  puts : ∀ p ∈ g.puts, p.Good emptyAtStart

/-- What holds of a device. A pointer to the current version names what was folded in last, in the file too. -/
structure DeviceInv (emptyAtStart : Prop) (g : Shared) (d : Device) : Prop where
  pointer_used : ∀ v, d.pointers.remoteEtag = some v.tag → v ∈ g.used
  pointer : ∀ v, d.pointers.remoteEtag = some v.tag → g.Current v →
    d.last = some v ∧ v ∈ d.memoryFolded ∧ v ∈ d.fileFolded
  last_used : ∀ v, d.last = some v → v ∈ g.used
  fetched_used : ∀ f, d.fetched = some f → f.version ∈ g.used
  fetched : ∀ f v, d.fetched = some f → d.pointers.remoteEtag = some v.tag → g.Current v → f.version = v
  sawEmpty : d.sawEmpty = true → emptyAtStart

/-- What a run may ask for. -/
def Allowed (d : Device) : Op → Prop
  | .putConditional bytes (some v) => ∃ folded, d.read = some (bytes, folded) ∧
      ((d.pointers.remoteEtag = some v.tag ∧ folded = d.fileFolded) ∨ (d.last = some v ∧ v ∈ folded))
  | .putConditional _ none => d.sawEmpty = true
  | .reconcile remote | .replaceDatabase remote =>
      ∃ f, d.fetched = some f ∧ d.openFromBytes f.bytes = .ok remote
  | _ => True

/-- What a run may return: its old pointers, or pointers to what was folded in last. -/
def Returned (d : Device) (a : SyncOutcome × SyncPointers) : Prop :=
  a.2 = d.pointers ∨
    ∃ v, a.2.remoteEtag = some v.tag ∧ d.last = some v ∧ v ∈ d.memoryFolded ∧ v ∈ d.fileFolded

variable {emptyAtStart : Prop} {g g' : Shared} {d d' : Device} {α : Type}

/-! ## One request -/

theorem tag_inj {v w : ObjectVersion} (h : v.tag = w.tag) : v = w := by
  cases v; cases w; exact congrArg _ h

/-- The object changes only by an upload under a version not used before. -/
theorem exec_shared {op : Op} {a : Answer op} (h : Exec g d op a g' d') :
    g' = g ∨ ∃ bytes ifMatch n, op = .putConditional bytes ifMatch ∧ g' = g.upload d bytes ifMatch n ∧ n ∉ g.used ∧
      (ifMatch = none ∨ ifMatch = g.object.map (·.version)) := by
  cases h with
  | put hm hn => exact .inr ⟨_, _, _, rfl, rfl, hn, hm⟩
  | putUnacknowledged e hm hn => exact .inr ⟨_, _, _, rfl, rfl, hn, hm⟩
  | _ => exact .inl rfl

theorem current_upload {bytes : Bytes} {ifMatch : Option ObjectVersion} {n v : ObjectVersion} :
    (g.upload d bytes ifMatch n).Current v ↔ n = v := by
  simp [Shared.Current, Shared.upload]

/-- An upload makes every pointer and every fetched snapshot out of date. -/
theorem DeviceInv.upload {bytes : Bytes} {ifMatch : Option ObjectVersion} {n : ObjectVersion} {other : Device}
    (h : DeviceInv emptyAtStart g other) (hn : n ∉ g.used) :
    DeviceInv emptyAtStart (g.upload d bytes ifMatch n) other where
  pointer_used v hv := .inr (h.pointer_used v hv)
  pointer v hv hc := absurd (current_upload.1 hc ▸ h.pointer_used v hv) hn
  last_used v hv := .inr (h.last_used v hv)
  fetched_used f hf := .inr (h.fetched_used f hf)
  fetched _ v _ hv hc := absurd (current_upload.1 hc ▸ h.pointer_used v hv) hn
  sawEmpty := h.sawEmpty

theorem exec_stable {op : Op} {a : Answer op} (h : Exec g d op a g' d') {other : Device}
    (ho : DeviceInv emptyAtStart g other) : DeviceInv emptyAtStart g' other := by
  rcases exec_shared h with rfl | ⟨_, _, _, -, rfl, hn, -⟩
  · exact ho
  · exact ho.upload hn

/-- An allowed upload that takes effect is good. -/
theorem good_upload {bytes : Bytes} {ifMatch : Option ObjectVersion} (hd : DeviceInv emptyAtStart g d)
    (ha : Allowed d (.putConditional bytes ifMatch)) (hm : ifMatch = none ∨ ifMatch = g.object.map (·.version))
    (n : ObjectVersion) :
    Put.Good emptyAtStart ⟨d.id, ifMatch, g.object.map (·.version), n, d.last, d.readFolded, d.sawEmpty⟩ := by
  cases ifMatch with
  | none => exact .inr ⟨rfl, ha, hd.sawEmpty ha⟩
  | some v =>
    obtain ⟨folded, hr, hv⟩ := ha
    have hcur : g.object.map (·.version) = some v := by simpa [eq_comm] using hm
    have hread : d.readFolded = folded := by simp [Device.readFolded, hr]
    refine .inl ⟨v, hcur, ?_⟩
    rw [hread]
    rcases hv with ⟨hp, rfl⟩ | ⟨hl, hf⟩
    · obtain ⟨s, hs, hsv⟩ := Option.map_eq_some_iff.1 hcur
      obtain ⟨hl, -, hfile⟩ := hd.pointer v hp ⟨s, hs, hsv⟩
      exact ⟨hl, hfile⟩
    · exact ⟨hl, hf⟩

theorem SharedInv.upload (hi : SharedInv emptyAtStart g) (hd : DeviceInv emptyAtStart g d) {bytes : Bytes}
    {ifMatch : Option ObjectVersion} (ha : Allowed d (.putConditional bytes ifMatch))
    (hm : ifMatch = none ∨ ifMatch = g.object.map (·.version)) (n : ObjectVersion) :
    SharedInv emptyAtStart (g.upload d bytes ifMatch n) where
  used s hs := by cases hs; exact Set.mem_insert n g.used
  present h := by cases h
  puts p hp := by
    rcases List.mem_cons.1 hp with rfl | hp
    · exact good_upload hd ha hm n
    · exact hi.puts p hp

theorem fetchedFolded_some {f : Stored} (hf : d.fetched = some f) : d.fetchedFolded = insert f.version f.folded := by
  simp [Device.fetchedFolded, hf]

theorem lastFetched_some {f : Stored} (hf : d.fetched = some f) : d.lastFetched = some f.version := by
  simp [Device.lastFetched, hf]

/-- The last version folded in becomes the fetched one; a pointer to the current version agrees with it. -/
theorem DeviceInv.fold (hd : DeviceInv emptyAtStart g d) {f : Stored} (hf : d.fetched = some f) (vault : Database)
    {memory : Set ObjectVersion} (hmem : f.version ∈ memory) :
    DeviceInv emptyAtStart g { d with vault := vault, memoryFolded := memory, last := d.lastFetched } := by
  have hlast := lastFetched_some hf
  refine ⟨hd.pointer_used, fun v hv hc => ?_, fun v hv => ?_, hd.fetched_used, hd.fetched, hd.sawEmpty⟩
  · have hfv := hd.fetched f v hf hv hc
    exact ⟨by rw [← hfv]; exact hlast, by rw [← hfv]; exact hmem, (hd.pointer v hv hc).2.2⟩
  · have : f.version = v := by simpa [hlast] using hv
    exact this ▸ hd.fetched_used f hf

theorem DeviceInv.saved (h : DeviceInv emptyAtStart g d) (bytes : Bytes) :
    DeviceInv emptyAtStart g (d.saved bytes) := by
  refine { h with pointer := fun v hv hc => ?_ }
  obtain ⟨hl, hm, -⟩ := h.pointer v hv hc
  exact ⟨hl, hm, hm⟩

theorem exec_inv {op : Op} {a : Answer op} (hi : SharedInv emptyAtStart g) (hd : DeviceInv emptyAtStart g d)
    (ha : Allowed d op) (h : Exec g d op a g' d') : SharedInv emptyAtStart g' ∧ DeviceInv emptyAtStart g' d' := by
  cases h with
  | head =>
    refine ⟨hi, { hd with sawEmpty := fun he => hi.present ?_ }⟩
    simpa using he
  | fetch hs _ =>
    refine ⟨hi, { hd with fetched_used := ?_, fetched := ?_ }⟩
    · rintro f hf; cases hf; exact hi.used _ hs
    · rintro f v hf _ ⟨t, ht, rfl⟩; cases hf; rw [hs, Option.some.injEq] at ht; rw [ht]
  | put hm hn =>
    refine ⟨hi.upload hd ha hm _, { hd.upload (d := d) hn with pointer := ?_, last_used := ?_ }⟩
    · intro v hv hc
      exact absurd (current_upload.1 hc ▸ hd.pointer_used v hv) hn
    · rintro v hv; cases hv; exact Set.mem_insert _ g.used
  | putUnacknowledged e hm hn => exact ⟨hi.upload hd ha hm _, hd.upload hn⟩
  | read => exact ⟨hi, { hd with }⟩
  | backup path => exact ⟨hi, { hd with }⟩
  | reconcile env _ =>
    obtain ⟨f, hf, -⟩ := ha
    exact ⟨hi, hd.fold hf _ (.inr (by simp [fetchedFolded_some hf]))⟩
  | reconcileFails env _ => exact ⟨hi, { hd with }⟩
  | replace _ =>
    obtain ⟨f, hf, -⟩ := ha
    exact ⟨hi, hd.fold hf _ (by simp [fetchedFolded_some hf])⟩
  | save bytes => exact ⟨hi, hd.saved bytes⟩
  | saveUnconfirmed bytes e => exact ⟨hi, hd.saved bytes⟩
  | _ => exact ⟨hi, hd⟩

/-! ## A run -/

/-- From `d`, the program asks only for what is allowed and ends with `Q`, whatever the other devices do. -/
abbrev Judged (emptyAtStart : Prop) (Q : Device → α → Prop) (d : Device) (p : SyncRun α) : Prop :=
  p.Upholds Allowed
    (fun d op a d' => ∃ g g', SharedInv emptyAtStart g ∧ DeviceInv emptyAtStart g d ∧ Exec g d op a g' d') Q
    (fun _ _ => True) d

section Requests

open SyncRun

variable {α : Type} {Q : Device → α → Prop}

theorem head_spec {f : Option ObjectVersion → SyncRun α}
    (h : ∀ v d', d'.pointers = d.pointers → d'.openFromBytes = d.openFromBytes → (v = none → d'.sawEmpty = true) →
      Judged emptyAtStart Q d' (f v)) : Judged emptyAtStart Q d (head >>= f) := by
  refine ⟨trivial, ?_⟩
  rintro a d' ⟨g, g', -, -, hx⟩
  cases hx with
  | head => exact h _ _ rfl rfl fun hn => by simpa using hn
  | headFails e => trivial

theorem readVaultBytes_spec {f : Bytes → SyncRun α}
    (h : Judged emptyAtStart Q { d with read := some (d.file, d.fileFolded) } (f d.file)) :
    Judged emptyAtStart Q d (readVaultBytes >>= f) := by
  refine ⟨trivial, ?_⟩
  rintro a d' ⟨g, g', -, -, hx⟩
  cases hx with
  | read => exact h
  | readFails e => trivial

theorem snapshotPreMerge_spec {f : String → SyncRun α}
    (h : ∀ path, Judged emptyAtStart Q { d with backup := some d.file } (f path)) :
    Judged emptyAtStart Q d (snapshotPreMerge >>= f) := by
  refine ⟨trivial, ?_⟩
  rintro a d' ⟨g, g', -, -, hx⟩
  cases hx with
  | backup path => exact h path
  | backupFails e => trivial

theorem fetchIfChanged_spec {prev : Option ObjectVersion} {f : Option ObjectSnapshot → SyncRun α}
    (unchanged : Judged emptyAtStart Q d (f none))
    (h : ∀ s, Judged emptyAtStart Q { d with fetched := some s } (f (some ⟨s.version, s.bytes⟩))) :
    Judged emptyAtStart Q d (fetchIfChanged prev >>= f) := by
  refine ⟨trivial, ?_⟩
  rintro a d' ⟨g, g', -, -, hx⟩
  cases hx with
  | fetch hs _ => exact h _
  | notModified _ _ => exact unchanged
  | fetchFails e => trivial

theorem refuseOtherKdf_spec {remoteDb : Database} {f : Unit → SyncRun α} (h : Judged emptyAtStart Q d (f ())) :
    Judged emptyAtStart Q d (refuseOtherKdf remoteDb >>= f) := by
  refine ⟨trivial, ?_⟩
  rintro a d' ⟨g, g', -, -, hx⟩
  cases hx with
  | database =>
    change Judged emptyAtStart Q d ((if _ then _ else _) >>= f)
    split
    · trivial
    · exact h

theorem replaceDatabase_spec {newDb : Database} {f : Unit → SyncRun α} {s : Stored} (hf : d.fetched = some s)
    (ho : d.openFromBytes s.bytes = .ok newDb)
    (h : Judged emptyAtStart Q
      { d with vault := newDb, memoryFolded := insert s.version s.folded, last := some s.version } (f ())) : Judged emptyAtStart Q d (replaceDatabase newDb >>= f) := by
  refine ⟨⟨s, hf, ho⟩, ?_⟩
  rintro a d' ⟨g, g', -, -, hx⟩
  cases hx with
  | replace _ => rw [fetchedFolded_some hf, lastFetched_some hf]; exact h
  | replaceRefused _ => trivial

theorem reconcile_spec {remote : Database} {f : Except MergeError EntryDelta → SyncRun α} {s : Stored}
    (hf : d.fetched = some s) (ho : d.openFromBytes s.bytes = .ok remote)
    (refused : ∀ e left, Judged emptyAtStart Q { d with vault := left } (f (.error e)))
    (h : ∀ merged delta, Judged emptyAtStart Q { d with
      vault := merged, memoryFolded := d.memoryFolded ∪ insert s.version s.folded, last :=
        some s.version } (f (.ok delta))) :
    Judged emptyAtStart Q d (Program.request Answer (.reconcile remote) >>= f) := by
  refine ⟨⟨s, hf, ho⟩, ?_⟩
  rintro a d' ⟨g, g', -, -, hx⟩
  cases hx with
  | reconcile env _ => rw [fetchedFolded_some hf, lastFetched_some hf]; exact h _ _
  | reconcileFails env _ => exact refused _ _

theorem save_spec {f : Unit → SyncRun α} (h : ∀ bytes, Judged emptyAtStart Q (d.saved bytes) (f ())) :
    Judged emptyAtStart Q d (save >>= f) := by
  refine ⟨trivial, ?_⟩
  rintro a d' ⟨g, g', -, -, hx⟩
  cases hx with
  | save bytes => exact h bytes
  | saveUnconfirmed bytes e => trivial
  | saveFails e => trivial

theorem put_spec {bytes : Bytes} {ifMatch : Option ObjectVersion} {f : Except SyncError ObjectVersion → SyncRun α}
    (ha : Allowed d (.putConditional bytes ifMatch)) (acknowledged : ∀ n,
      Judged emptyAtStart Q (d.synced n) (f (.ok n)))
    (failed : ∀ e, Judged emptyAtStart Q d (f (.error e))) :
    Judged emptyAtStart Q d (Program.request Answer (.putConditional bytes ifMatch) >>= f) := by
  refine ⟨ha, ?_⟩
  rintro a d' ⟨g, g', -, -, hx⟩
  cases hx with
  | put _ _ => exact acknowledged _
  | putUnacknowledged e _ _ => exact failed e
  | putFails e => exact failed e

end Requests

section Run

open SyncRun

variable {sha256 : Bytes → String}

theorem returned_synced (d : Device) (outcome : SyncOutcome) (n : ObjectVersion) (sha : Option String) :
    Returned (d.synced n) (outcome, ⟨some n.tag, sha⟩) :=
  .inr ⟨n, rfl, rfl, Set.mem_insert n _, Set.mem_insert n _⟩

theorem pushOnly_judged {bytes : Bytes} {prevRemote : Option ObjectVersion}
    (ha : Allowed d (.putConditional bytes prevRemote)) :
    Judged emptyAtStart Returned d (pushOnly sha256 prevRemote bytes) :=
  put_spec (f := fun r => ofExcept r >>= fun n : ObjectVersion =>
      (pure (.pushed prevRemote.isNone, ⟨some n.tag, some (sha256 bytes)⟩) : SyncRun (SyncOutcome × SyncPointers)))
    ha (fun n => returned_synced d _ n _) fun _ => trivial

theorem fastReplace_judged {prevRemote : Option ObjectVersion} :
    Judged emptyAtStart Returned d (fastReplace d.openFromBytes sha256 d.pointers prevRemote) := by
  refine fetchIfChanged_spec (.inl rfl) fun s => ?_
  refine Upholds.ofExcept (fun remoteDb ho => ?_) fun _ _ => trivial
  refine refuseOtherKdf_spec (snapshotPreMerge_spec fun path => ?_)
  refine replaceDatabase_spec (s := s) rfl ho (save_spec fun bytes => readVaultBytes_spec ?_)
  exact .inr ⟨s.version, rfl, rfl, Set.mem_insert _ _, Set.mem_insert _ _⟩

/-- Every round of the loop uploads over the version it has fetched and reconciled itself. -/
theorem mergeLoop_judged {path : String} {max left : Nat} {openFromBytes : Bytes → Except SyncError Database}
    (ho : d.openFromBytes = openFromBytes) :
    Judged emptyAtStart Returned d (mergeLoop openFromBytes sha256 path max left) := by
  induction left generalizing d with
  | zero => trivial
  | succ left ih =>
    refine fetchIfChanged_spec trivial fun s => ?_
    refine Upholds.ofExcept (fun remoteDb hr => ?_) fun _ _ => trivial
    refine refuseOtherKdf_spec (reconcile_spec (s := s) rfl (by rw [← ho] at hr; exact hr) (fun _ _ => trivial) ?_)
    intro merged delta
    refine save_spec fun bytes => readVaultBytes_spec (put_spec ?_ (fun n => returned_synced _ _ n _) fun e => ?_)
    · exact ⟨_, rfl, .inr ⟨rfl, .inr (Set.mem_insert _ _)⟩⟩
    · dsimp only
      split
      · trivial
      split
      · trivial
      · exact ih ho

theorem runStateMachine_judged (d : Device) (maxRetries : Nat) :
    Judged emptyAtStart Returned d (runStateMachine d.openFromBytes sha256 d.pointers maxRetries) := by
  refine head_spec fun v d₁ hp ho hempty => readVaultBytes_spec ?_
  rw [← hp, ← ho]
  dsimp only
  split
  · exact .inl rfl
  · -- the HEAD saw what the pointer names: an upload over it, or over nothing
    rename_i hsame _
    have hv : v = d₁.pointers.remoteEtag.map ObjectVersion.mk := by simpa using hsame
    refine pushOnly_judged ?_
    cases he : d₁.pointers.remoteEtag with
    | none => exact hempty (by rw [hv, he]; rfl)
    | some tag => exact ⟨d₁.fileFolded, rfl, .inl ⟨he, rfl⟩⟩
  · exact fastReplace_judged (d := { d₁ with read := some (d₁.file, d₁.fileFolded) })
  · exact snapshotPreMerge_spec fun path => mergeLoop_judged rfl

end Run

/-! ## All runs -/

theorem DeviceInv.atRest (h : DeviceInv emptyAtStart g d) : DeviceInv emptyAtStart g d.atRest :=
  { h with fetched_used := nofun, fetched := nofun, sawEmpty := nofun }

theorem DeviceInv.reopened (h : DeviceInv emptyAtStart g d) (db : Database) :
    DeviceInv emptyAtStart g { d with vault := db, memoryFolded := d.fileFolded } := by
  refine { h with pointer := fun v hv hc => ?_ }
  obtain ⟨hl, -, hf⟩ := h.pointer v hv hc
  exact ⟨hl, hf, hf⟩

theorem DeviceInv.returned {a : SyncOutcome × SyncPointers} (h : DeviceInv emptyAtStart g d) (ha : Returned d a) :
    DeviceInv emptyAtStart g { d.atRest with pointers := a.2, outcomes := a.1 :: d.outcomes } := by
  rcases ha with ha | ⟨v, hv, hl, hm, hf⟩
  · rw [ha]; exact { h.atRest with }
  · have names : ∀ w : ObjectVersion, a.2.remoteEtag = some w.tag → w = v := fun w hw =>
      tag_inj (Option.some.inj (hw.symm.trans hv))
    refine { h.atRest with pointer_used := fun w hw => ?_, pointer := fun w hw _ => ?_, fetched := nofun }
    · rw [names w hw]; exact h.last_used v hl
    · rw [names w hw]; exact ⟨hl, hm, hf⟩

theorem devices_proof (emptyAtStart : Prop) (sha256 : Bytes → String) :
    System.Proof (devices sha256) (SharedInv emptyAtStart) (DeviceInv emptyAtStart) Allowed Returned fun _ _ =>
      True where
  exec hi hd ha h := exec_inv hi hd ha h
  stable _ _ _ h other ho := exec_stable h ho
  begins := by
    rintro g d d' p - hd ⟨rfl, maxRetries, rfl⟩
    exact ⟨hd.atRest, runStateMachine_judged d.atRest maxRetries⟩
  returns := by
    rintro g d a d' hd ha (rfl | rfl)
    · exact hd.returned ha
    · exact hd.atRest
  fails := by rintro g d e d' hd - rfl; exact hd.atRest
  idles := by
    rintro g d d' hd (db | bytes | db)
    · exact { hd with }
    · exact hd.saved bytes
    · exact hd.reopened db
  crashes := by rintro g d d' hd ⟨db, rfl⟩; exact hd.atRest.reopened db

variable {ι : Type} [DecidableEq ι]

/-- Where the runs start: no upload yet, and every device either never synced or knows the version its pointer names. -/
structure Start (s : Devices ι) : Prop where
  running : ∀ i, s.running i = none
  puts : s.shared.puts = []
  used : ∀ o, s.shared.object = some o → o.version ∈ s.shared.used
  rest : ∀ i, (s.party i).atRest = s.party i
  synced : ∀ i, ((s.party i).pointers.remoteEtag = none ∧ (s.party i).last = none) ∨
    ∃ v ∈ s.shared.used, (s.party i).pointers.remoteEtag = some v.tag ∧ (s.party i).last = some v ∧
      v ∈ (s.party i).memoryFolded ∧ v ∈ (s.party i).fileFolded

omit [DecidableEq ι] in
theorem Start.holds {s : Devices ι} (h : Start s) (sha256 : Bytes → String) :
    System.Proof.Holds (devices sha256) (SharedInv (s.shared.object = none))
      (DeviceInv (s.shared.object = none)) Allowed
      Returned (fun _ _ => True) s := by
  refine ⟨⟨h.used, id, by simp [h.puts]⟩, fun i => ?_, fun i p hp => by simp [h.running] at hp⟩
  rw [← h.rest i]
  rcases h.synced i with ⟨hp, hl⟩ | ⟨v, hu, hp, hl, hm, hf⟩
  · refine ⟨fun v hv => ?_, fun v hv => ?_, fun v hv => ?_, nofun, nofun, nofun⟩
    · simp [Device.atRest, hp] at hv
    · simp [Device.atRest, hp] at hv
    · simp [Device.atRest, hl] at hv
  · have names : ∀ w : ObjectVersion, (s.party i).pointers.remoteEtag = some w.tag → w = v := fun w hw =>
      tag_inj (Option.some.inj (hw.symm.trans hp))
    refine ⟨fun w hw => ?_, fun w hw _ => ?_, fun w hw => ?_, nofun, nofun, nofun⟩
    · rw [names w hw]; exact hu
    · rw [names w hw]; exact ⟨hl, hm, hf⟩
    · have : v = w := by simpa [Device.atRest, hl] using hw
      exact this ▸ hu

/-- When the object exists from the start, every upload goes over the version its device last folded in, and the
uploaded bytes have it folded in. -/
theorem every_put_folds_what_it_replaces (sha256 : Bytes → String) {s t : Devices ι} (hs : Start s) {o : Stored}
    (ho : s.shared.object = some o) (hr : System.Reachable (devices sha256) s t) :
    ∀ p ∈ t.shared.puts, ∃ v, p.replaced = some v ∧ p.last = some v ∧ v ∈ p.folded := by
  intro p hp
  have hi := ((devices_proof _ sha256).reachable (hs.holds sha256) hr).shared
  rcases hi.puts p hp with hg | ⟨-, -, he⟩
  · exact hg
  · rw [ho] at he; cases he

/-- A device that has not synced yet. -/
def newDevice (id : Nat) (file : Bytes) : Device where
  id := id
  openFromBytes _ := .ok (Database.withData ⟨.aes 0⟩ 0 0)
  vault := Database.withData ⟨.aes 0⟩ 0 0
  file := file

/-- One device that synced the current version and has changed its file since. -/
def oneDevice : Devices Unit where
  shared := { object := some ⟨⟨"v0"⟩, [0], ∅⟩, used := {⟨"v0"⟩} }
  party _ := { (newDevice 0 [1]).synced ⟨"v0"⟩ with pointers := ⟨some "v0", some "0"⟩ }
  running _ := none

theorem oneDevice_start : Start oneDevice := by
  refine ⟨fun _ => rfl, rfl, ?_, fun _ => rfl, fun _ => .inr ⟨⟨"v0"⟩, ?_⟩⟩
  · rintro o ho; cases ho; exact Set.mem_singleton _
  · simp [oneDevice, Device.synced]

/-- The device pushes, and the rule holds of its upload. -/
theorem every_put_folds_what_it_replaces_push : ∃ t, System.Reachable (devices fun _ => "") oneDevice t ∧
    t.shared.puts.length = 1 ∧ ∀ p ∈ t.shared.puts, ∃ v, p.replaced = some v ∧ p.last = some v ∧ v ∈ p.folded := by
  have fresh : (⟨"v1"⟩ : ObjectVersion) ∉ oneDevice.shared.used := by simp [oneDevice]
  have run := System.Reachable.start (S := devices fun _ => "") (s := oneDevice)
  replace run := run.step (.begin () rfl ⟨rfl, 3, rfl⟩)
  replace run := run.step (.request () rfl .head)
  replace run := run.step (.request () rfl .read)
  replace run := run.step (.request () rfl (.put (.inr rfl) fresh))
  exact ⟨_, run, rfl, every_put_folds_what_it_replaces _ oneDevice_start rfl run⟩

/-! ## First seeds -/

/-- Two devices and no object yet. -/
def twoNewDevices : Devices Bool where
  shared := { object := none, used := ∅ }
  party i := if i then newDevice 1 [1] else newDevice 0 [0]
  running _ := none

theorem twoNewDevices_start : Start twoNewDevices :=
  ⟨fun _ => rfl, rfl, nofun, fun i => by cases i <;> rfl, fun i => .inl (by cases i <;> exact ⟨rfl, rfl⟩)⟩

/-- Both HEADs come before both uploads. -/
theorem twoNewDevices_race : ∃ t, System.Reachable (devices fun _ => "") twoNewDevices t ∧
    (t.party false).id = 0 ∧ (t.party false).outcomes = [.pushed true] ∧
    t.shared.puts = [⟨1, none, some ⟨"v0"⟩, ⟨"v1"⟩, none, ∅, true⟩, ⟨0, none, none, ⟨"v0"⟩, none, ∅, true⟩] := by
  have run := System.Reachable.start (S := devices fun _ => "") (s := twoNewDevices)
  replace run := run.step (.begin false rfl ⟨rfl, 3, rfl⟩)
  replace run := run.step (.begin true rfl ⟨rfl, 3, rfl⟩)
  replace run := run.step (.request false rfl .head)
  replace run := run.step (.request true rfl .head)
  replace run := run.step (.request false rfl .read)
  replace run := run.step (.request true rfl .read)
  replace run := run.step (.request false rfl (.put (n := ⟨"v0"⟩) (.inl rfl) (Set.notMem_empty _)))
  replace run := run.step (.return false rfl (.inl rfl))
  have fresh : (⟨"v1"⟩ : ObjectVersion) ∉ (insert ⟨"v0"⟩ ∅ : Set ObjectVersion) := by simp
  replace run := run.step (.request true rfl (.put (.inl rfl) fresh))
  exact ⟨_, run, rfl, rfl, rfl⟩

/-- No upload of a run that returned `Pushed { is_first_seed: true }` has been replaced by another device that had
not folded it in. -/
def FirstSeedsKept (t : Devices ι) : Prop :=
  ∀ i, .pushed true ∈ (t.party i).outcomes → ∀ p ∈ t.shared.puts, p.device = (t.party i).id → p.ifMatch = none →
    ∀ q ∈ t.shared.puts, q.device ≠ p.device → q.replaced = some p.minted → p.minted ∈ q.folded

theorem firstSeed_race_loses :
    (Start twoNewDevices ∧ twoNewDevices.shared.object = none ∧ ∀ i, (twoNewDevices.party i).pointers = {}) ∧
    ¬ ∀ t, System.Reachable (devices fun _ => "") twoNewDevices t → FirstSeedsKept t := by
  refine ⟨⟨twoNewDevices_start, rfl, fun i => by cases i <;> rfl⟩, fun h => ?_⟩
  obtain ⟨t, run, hid, hout, hputs⟩ := twoNewDevices_race
  have kept := h t run false (by rw [hout]; exact .head _) ⟨0, none, none, ⟨"v0"⟩, none, ∅, true⟩
    (by rw [hputs]; exact .tail _ (.head _)) hid.symm rfl ⟨1, none, some ⟨"v0"⟩, ⟨"v1"⟩, none, ∅, true⟩
    (by rw [hputs]; exact .head _) (by decide) rfl
  exact Set.notMem_empty _ kept

/-- Wherever the object starts, only a first upload whose HEAD found no object goes over a version unseen. -/
theorem only_first_seeds_overwrite (sha256 : Bytes → String) {s t : Devices ι} (hs : Start s)
    (hr : System.Reachable (devices sha256) s t) :
    ∀ p ∈ t.shared.puts, ∀ v, p.replaced = some v →
      (p.last = some v ∧ v ∈ p.folded) ∨ (p.ifMatch = none ∧ p.sawEmpty = true) := by
  intro p hp v hv
  have hi := ((devices_proof _ sha256).reachable (hs.holds sha256) hr).shared
  rcases hi.puts p hp with ⟨w, hw, hl, hf⟩ | ⟨hm, he, -⟩
  · obtain rfl : w = v := Option.some.inj (hw.symm.trans hv)
    exact .inl ⟨hl, hf⟩
  · exact .inr ⟨hm, he⟩

/-- The rule on the race of two first uploads. -/
theorem only_first_seeds_overwrite_race : ∃ t, System.Reachable (devices fun _ => "") twoNewDevices t ∧
    t.shared.puts.length = 2 ∧ ∀ p ∈ t.shared.puts, ∀ v, p.replaced = some v →
      (p.last = some v ∧ v ∈ p.folded) ∨ (p.ifMatch = none ∧ p.sawEmpty = true) := by
  obtain ⟨t, run, -, -, hputs⟩ := twoNewDevices_race
  exact ⟨t, run, by rw [hputs]; rfl, only_first_seeds_overwrite _ twoNewDevices_start run⟩

end Falach
