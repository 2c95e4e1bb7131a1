import Falach.Sync.Recovery
import Falach.Sync.SyncNow
/-!
# Exact pointers

After a call that returned `Ok`, the stored hash is that of the vault file, and the stored version is the one the
object had when the transport last answered; the bytes of that hash were uploaded as this version or saved from it. So
when nothing changes, the next call has nothing to do.
-/

namespace Falach

open Keepass Program

namespace Client

variable {encrypts : Database → Bytes → Prop} {openFromBytes : Bytes → Except SyncError Database}
  {sha256 : Bytes → String} {c c' : Client} {last : SyncPointers}

/-- The bytes were uploaded as version `v`, or are a save of the database obtained from it. -/
def Origin (encrypts : Database → Bytes → Prop) (openFromBytes : Bytes → Except SyncError Database) (c : Client)
    (v : ObjectVersion) (bytes : Bytes) : Prop :=
  (v, bytes) ∈ c.uploaded ∨
    ∃ s ∈ c.fetched, s.version = v ∧ ∃ db, openFromBytes s.bytes = .ok db ∧ encrypts db bytes

/-- The pointers are empty, or they were recorded together for some bytes. -/
def Recorded (encrypts : Database → Bytes → Prop) (openFromBytes : Bytes → Except SyncError Database)
    (sha256 : Bytes → String) (c : Client) (last : SyncPointers) : Prop :=
  last = {} ∨ ∃ v bytes, last = ⟨some v.tag, some (sha256 bytes)⟩ ∧ Origin encrypts openFromBytes c v bytes

/-- The pointers name the hash of the vault file and the version of the object, and bytes of that hash come from that
version. -/
structure Exact (encrypts : Database → Bytes → Prop) (openFromBytes : Bytes → Except SyncError Database)
    (sha256 : Bytes → String) (c : Client) (last : SyncPointers) (v : ObjectVersion) (bytes synced : Bytes) : Prop where
  pointers : last = ⟨some v.tag, some (sha256 bytes)⟩
  file : c.machine.file = some bytes
  object : c.object.map (·.version) = some v
  hash : sha256 synced = sha256 bytes
  origin : Origin encrypts openFromBytes c v synced

theorem Origin.mono {v : ObjectVersion} {bytes : Bytes} (h : Origin encrypts openFromBytes c v bytes)
    (hu : c.uploaded ⊆ c'.uploaded) (hf : c.fetched ⊆ c'.fetched) : Origin encrypts openFromBytes c' v bytes :=
  h.imp (hu ·) fun ⟨s, hs, h⟩ => ⟨s, hf hs, h⟩

theorem Recorded.mono (h : Recorded encrypts openFromBytes sha256 c last) (hu : c.uploaded ⊆ c'.uploaded)
    (hf : c.fetched ⊆ c'.fetched) : Recorded encrypts openFromBytes sha256 c' last :=
  h.imp id fun ⟨v, bytes, hl, ho⟩ => ⟨v, bytes, hl, ho.mono hu hf⟩

theorem Exact.recorded {v : ObjectVersion} {bytes synced : Bytes}
    (h : Exact encrypts openFromBytes sha256 c last v bytes synced) : Recorded encrypts openFromBytes sha256 c last :=
  .inr ⟨v, synced, by rw [h.hash]; exact h.pointers, h.origin⟩

/-- Recorded pointers that match the file and the object are exact. -/
theorem Recorded.exact {bytes : Bytes} (h : Recorded encrypts openFromBytes sha256 c last)
    (hf : c.machine.file = some bytes) (hl : some (sha256 bytes) = last.localSha256)
    (ho : c.object.map (·.version) = last.remoteEtag.map ObjectVersion.mk) :
    ∃ v synced, Exact encrypts openFromBytes sha256 c last v bytes synced := by
  obtain rfl | ⟨v, synced, rfl, origin⟩ := h
  · cases hl
  · have hash : sha256 bytes = sha256 synced := Option.some.inj hl
    exact ⟨v, synced, by rw [hash], hf, ho, hash.symm, origin⟩

/-! ## A run -/

/-- From `c`, the program ends only with exact pointers. -/
abbrev Settles (encrypts : Database → Bytes → Prop) (openFromBytes : Bytes → Except SyncError Database)
    (sha256 : Bytes → String) (c : Client) (p : SyncRun (SyncOutcome × SyncPointers)) : Prop :=
  p.Upholds (fun _ _ => True) (fun c op a c' => Exec encrypts c op a c')
    (fun c a => ∃ v bytes synced, Exact encrypts openFromBytes sha256 c a.2 v bytes synced) (fun _ _ => True) c

section

open SyncRun

/-- What a request that stays on the machine does. -/
theorem local_settles {op : Op} {k : Answer op → SyncRun (SyncOutcome × SyncPointers)} (hop : Local op)
    (h : ∀ a m, Machine.Exec encrypts c.machine op a m →
      Settles encrypts openFromBytes sha256 { c with machine := m, succeeded := false } (k a)) :
    Settles encrypts openFromBytes sha256 c (.ask op k) := by
  refine ⟨trivial, fun a c' hx => ?_⟩
  cases hx with
  | «local» _ hm => exact h a _ hm
  | _ => exact absurd hop id

theorem head_settles {f : Option ObjectVersion → SyncRun (SyncOutcome × SyncPointers)}
    (h : ∀ object, Settles encrypts openFromBytes sha256
      { c with machine := c.machine.ask .head, object := object, succeeded := false } (f (object.map (·.version)))) :
    Settles encrypts openFromBytes sha256 c (head >>= f) := by
  refine ⟨trivial, fun a c' hx => ?_⟩
  cases hx with
  | head object => exact h object
  | headFails object e => trivial
  | «local» hop _ => exact absurd hop id

theorem fetchIfChanged_settles {prev : Option ObjectVersion}
    {f : Option ObjectSnapshot → SyncRun (SyncOutcome × SyncPointers)}
    (unchanged : ∀ object, prev = object.map (·.version) → Settles encrypts openFromBytes sha256
      { c with machine := c.machine.ask (.fetchIfChanged prev), object := object, succeeded := false } (f none))
    (changed : ∀ s, Settles encrypts openFromBytes sha256
      { c with
        machine := c.machine.ask (.fetchIfChanged prev), object := some s, fetched := insert s c.fetched
        succeeded := false } (f (some s))) :
    Settles encrypts openFromBytes sha256 c (fetchIfChanged prev >>= f) := by
  refine ⟨trivial, fun a c' hx => ?_⟩
  cases hx with
  | fetch s _ => exact changed s
  | notModified object ho => exact unchanged object ho
  | fetchFails object e => trivial
  | «local» hop _ => exact absurd hop id

theorem readVaultBytes_settles {f : Bytes → SyncRun (SyncOutcome × SyncPointers)}
    (h : ∀ bytes m, c.machine.file = some bytes → m.file = some bytes →
      Settles encrypts openFromBytes sha256 { c with machine := m, succeeded := false } (f bytes)) :
    Settles encrypts openFromBytes sha256 c (readVaultBytes >>= f) := by
  refine local_settles trivial fun a m hx => ?_
  cases hx with
  | read hr => exact h _ _ hr hr
  | readFails source => trivial

variable {f : Unit → SyncRun (SyncOutcome × SyncPointers)}

theorem refuseOtherKdf_settles {remoteDb : Database}
    (h : ∀ m, m.file = c.machine.file →
      Settles encrypts openFromBytes sha256 { c with machine := m, succeeded := false } (f ())) :
    Settles encrypts openFromBytes sha256 c (refuseOtherKdf remoteDb >>= f) := by
  refine local_settles trivial fun a m hx => ?_
  cases hx with
  | database =>
    change Settles encrypts openFromBytes sha256 _ ((if _ then _ else _) >>= f)
    split
    · trivial
    · exact h _ rfl

theorem snapshotPreMerge_settles {f : String → SyncRun (SyncOutcome × SyncPointers)}
    (h : ∀ m path, Settles encrypts openFromBytes sha256 { c with machine := m, succeeded := false } (f path)) :
    Settles encrypts openFromBytes sha256 c (snapshotPreMerge >>= f) := by
  refine local_settles trivial fun a m hx => ?_
  cases hx with
  | backup _ => exact h _ _
  | backupUnconfirmed e _ => trivial
  | backupFails e => trivial

theorem replaceDatabase_settles {newDb : Database}
    (h : ∀ m, m.database = newDb → Settles encrypts openFromBytes sha256 { c with machine := m, succeeded := false }
    (f ())) :
    Settles encrypts openFromBytes sha256 c (replaceDatabase newDb >>= f) := by
  refine local_settles trivial fun a m hx => ?_
  cases hx with
  | replace _ => exact h _ rfl
  | replaceRefused _ => trivial

theorem reconcile_settles {remote : Database}
    {f : Except MergeError EntryDelta → SyncRun (SyncOutcome × SyncPointers)}
    (h : ∀ m a, Settles encrypts openFromBytes sha256 { c with machine := m, succeeded := false } (f a)) :
    Settles encrypts openFromBytes sha256 c (request Answer (.reconcile remote) >>= f) :=
  local_settles trivial fun a m _ => h m a

/-- A save and the read after it. -/
theorem save_settles {f : Bytes → SyncRun (SyncOutcome × SyncPointers)}
    (h : ∀ bytes m, m.file = some bytes → encrypts c.machine.database bytes →
      Settles encrypts openFromBytes sha256 { c with machine := m, succeeded := false } (f bytes)) :
    Settles encrypts openFromBytes sha256 c (save >>= fun _ => readVaultBytes >>= f) := by
  refine local_settles trivial fun a m hx => ?_
  cases hx with
  | save hb =>
    refine readVaultBytes_settles fun read m hr hm => ?_
    obtain rfl := Option.some.inj ((Machine.file_saved _ _).symm.trans hr)
    exact h _ _ hm hb
  | saveUnconfirmed e _ => trivial
  | saveFails e => trivial

theorem fastReplace_settles {bytes : Bytes} (h : Recorded encrypts openFromBytes sha256 c last)
    (hf : c.machine.file = some bytes) (hl : some (sha256 bytes) = last.localSha256) :
    Settles encrypts openFromBytes sha256 c
      (fastReplace openFromBytes sha256 last (last.remoteEtag.map ObjectVersion.mk)) := by
  refine fetchIfChanged_settles (fun object ho => ?_) fun s => ?_
  · have recorded : Recorded encrypts openFromBytes sha256 { c with object := object } last :=
      h.mono subset_rfl subset_rfl
    obtain ⟨v, synced, he⟩ := recorded.exact hf hl ho.symm
    exact ⟨v, bytes, synced, { he with }⟩
  · refine Upholds.ofExcept (fun remoteDb ho => ?_) fun _ _ => trivial
    refine refuseOtherKdf_settles fun _ _ => ?_
    refine snapshotPreMerge_settles fun _ _ => ?_
    refine replaceDatabase_settles fun m hm => ?_
    refine save_settles fun new m' hfile henc => ?_
    exact ⟨s.version, new, new, rfl, hfile, rfl, rfl, .inr ⟨s, .inl rfl, rfl, remoteDb, ho, hm ▸ henc⟩⟩

/-- An upload makes the object what the vault file is. -/
theorem put_settles {bytes : Bytes} {ifMatch : Option ObjectVersion}
    {f : Except SyncError ObjectVersion → SyncRun (SyncOutcome × SyncPointers)} (outcome : SyncOutcome)
    (hf : c.machine.file = some bytes)
    (ok : ∀ n : ObjectVersion, f (.ok n) = .done (outcome, ⟨some n.tag, some (sha256 bytes)⟩))
    (error : ∀ object e, Settles encrypts openFromBytes sha256
      { c with machine := c.machine.ask (.putConditional bytes ifMatch), object := object, succeeded := false }
      (f (.error e))) :
    Settles encrypts openFromBytes sha256 c (request Answer (.putConditional bytes ifMatch) >>= f) := by
  refine ⟨trivial, fun a c' hx => ?_⟩
  cases hx with
  | put n =>
    change Settles _ _ _ _ (f (.ok n))
    rw [ok]
    exact ⟨n, bytes, bytes, rfl, hf, rfl, rfl, .inl (.inl rfl)⟩
  | putFails object e => exact error object e
  | «local» hop _ => exact absurd hop id

theorem mergeLoop_settles {backupPath : String} {max left : Nat} :
    Settles encrypts openFromBytes sha256 c (mergeLoop openFromBytes sha256 backupPath max left) := by
  induction left generalizing c with
  | zero => trivial
  | succ left ih =>
    refine fetchIfChanged_settles (fun _ _ => trivial) fun s => ?_
    refine Upholds.ofExcept (fun remoteDb _ => ?_) fun _ _ => trivial
    refine refuseOtherKdf_settles fun _ _ => ?_
    refine reconcile_settles fun _ a => ?_
    cases a with
    | error reason => trivial
    | ok delta =>
      refine save_settles fun merged m hf _ => put_settles (.merged delta (max - left)) hf (fun _ => rfl)
        fun object e => ?_
      dsimp only
      split
      · trivial
      split
      · trivial
      · exact ih

theorem runStateMachine_settles {maxRetries : Nat} (h : Recorded encrypts openFromBytes sha256 c last) :
    Settles encrypts openFromBytes sha256 c (runStateMachine openFromBytes sha256 last maxRetries) := by
  refine head_settles fun object => readVaultBytes_settles fun bytes m _ hf => ?_
  have recorded : Recorded encrypts openFromBytes sha256
    { c with machine := m, object := object, succeeded := false } last :=
    h.mono subset_rfl subset_rfl
  dsimp only
  split
  · next hr hl =>
    have hr : object.map (·.version) = last.remoteEtag.map ObjectVersion.mk := by simpa using hr
    obtain ⟨v, synced, he⟩ := recorded.exact hf (by simpa using hl) hr
    exact ⟨v, bytes, synced, he⟩
  · exact put_settles (.pushed (last.remoteEtag.map ObjectVersion.mk).isNone) hf (fun _ => rfl)
      fun _ _ => trivial
  · next hl => exact fastReplace_settles recorded hf (by simpa using hl)
  · exact snapshotPreMerge_settles fun _ _ => mergeLoop_settles

end

/-! ## Many calls -/

/-- The pointers a call leaves in the configuration: those its run returned, or the old ones. -/
def pointersAfter (cfg : SyncConfig) : Except SyncError (SyncOutcome × SyncPointers) → SyncPointers
  | .ok a => a.2
  | .error _ => cfg.pointers

/-- What the write of a block does, whatever becomes of the file. -/
theorem save_configures (registry : Registry) {vaultName : String} {cfg : SyncConfig}
    (hv : registry.vaults.lookup vaultName = some cfg) (write : Write) :
    (registry.save write).2.vaults = registry.vaults ∧
      ((registry.save write).2.stored = registry.stored ∨ (registry.save write).2.stored.lookup vaultName = some cfg) ∧
      ((registry.save write).1.isOk = true → (registry.save write).2.stored.lookup vaultName = some cfg) := by
  cases write with
  | done => exact ⟨rfl, .inr hv, fun _ => hv⟩
  | unconfirmed e => exact ⟨rfl, .inr hv, nofun⟩
  | failed e => exact ⟨rfl, .inl rfl, nofun⟩

/-- A configuration of the vault after a call is one from before, or it has the pointers after the call; when the call
returns `Ok`, such a one is in memory and in the file. -/
theorem syncNowWithTransport_configures {registry registry' : Registry} {vaultName : String} {cfg : SyncConfig}
    {update : SyncConfig → SyncConfig} (hu : KeepsPointers update) {write : Write}
    {result : Except SyncError (SyncOutcome × SyncPointers)} {returned : Except SyncError SyncOutcome}
    (h : syncNowWithTransport registry vaultName cfg update write result = (returned, registry')) :
    (registry' = registry ∧ returned.isOk = false) ∨ ∃ new, new.pointers = pointersAfter cfg result ∧
      registry'.vaults.lookup vaultName = some new ∧
      (registry'.stored = registry.stored ∨ registry'.stored.lookup vaultName = some new) ∧
      (returned.isOk = true → registry'.stored.lookup vaultName = some new) := by
  by_cases hm : vaultName ∈ registry.vaults
  · refine .inr ?_
    cases result with
    | ok a =>
      simp only [syncNowWithTransport, Registry.updateSyncBlock, if_pos hm, Prod.mk.injEq] at h
      obtain ⟨rfl, rfl⟩ := h
      obtain ⟨hv, hs, hok⟩ := save_configures { registry with vaults := registry.vaults.insert vaultName _ }
        (Finmap.lookup_insert _) write
      refine ⟨_, rfl, by rw [hv]; exact Finmap.lookup_insert _, hs, fun hr => hok ?_⟩
      revert hr
      cases (Registry.save _ write).1 <;> exact id
    | error err =>
      simp only [syncNowWithTransport, Registry.updateSyncBlock, if_pos hm, Prod.mk.injEq] at h
      obtain ⟨rfl, rfl⟩ := h
      obtain ⟨hv, hs, -⟩ := save_configures
        { registry with vaults := registry.vaults.insert vaultName (update cfg) }
        (Finmap.lookup_insert _) write
      exact ⟨update cfg, hu cfg, by rw [hv]; exact Finmap.lookup_insert _, hs, nofun⟩
  · refine .inl ?_
    cases result with
    | ok a =>
      simp only [syncNowWithTransport, Registry.updateSyncBlock, if_neg hm, Prod.mk.injEq] at h
      obtain ⟨rfl, rfl⟩ := h
      exact ⟨rfl, rfl⟩
    | error err =>
      simp only [syncNowWithTransport, Registry.updateSyncBlock, if_neg hm, Prod.mk.injEq] at h
      obtain ⟨rfl, rfl⟩ := h
      exact ⟨rfl, rfl⟩

theorem syncNowWithTransport_error (registry : Registry) (vaultName : String) (cfg : SyncConfig)
    (update : SyncConfig → SyncConfig) (write : Write) (e : SyncError) :
    (syncNowWithTransport registry vaultName cfg update write (.error e)).1 = .error e := by
  simp only [syncNowWithTransport]
  split <;> rfl

/-- All pointers that are kept somewhere were recorded together, and those a successful call stored are exact. -/
structure Inv (encrypts : Database → Bytes → Prop) (openFromBytes : Bytes → Except SyncError Database)
    (sha256 : Bytes → String) (c : Client) : Prop where
  vaults : ∀ cfg, c.registry.vaults.lookup c.vaultName = some cfg →
    Recorded encrypts openFromBytes sha256 c cfg.pointers
  stored : ∀ cfg, c.registry.stored.lookup c.vaultName = some cfg →
    Recorded encrypts openFromBytes sha256 c cfg.pointers
  cfg : Recorded encrypts openFromBytes sha256 c c.cfg.pointers
  succeeded : c.succeeded = true → ∃ cfg v bytes synced, c.registry.vaults.lookup c.vaultName = some cfg ∧
    c.registry.stored.lookup c.vaultName = some cfg ∧ Exact encrypts openFromBytes sha256 c cfg.pointers v bytes synced

theorem Inv.congr (h : Inv encrypts openFromBytes sha256 c) (hr : c'.registry = c.registry)
    (hn : c'.vaultName = c.vaultName) (hc : c'.cfg = c.cfg) (hu : c.uploaded ⊆ c'.uploaded)
    (hf : c.fetched ⊆ c'.fetched) (hs : c'.succeeded = false) : Inv encrypts openFromBytes sha256 c' := by
  refine ⟨fun cfg hl => ?_, fun cfg hl => ?_, ?_, fun hs' => ?_⟩
  · rw [hr, hn] at hl; exact (h.vaults cfg hl).mono hu hf
  · rw [hr, hn] at hl; exact (h.stored cfg hl).mono hu hf
  · rw [hc]; exact h.cfg.mono hu hf
  · rw [hs] at hs'; cases hs'

theorem Inv.exec (h : Inv encrypts openFromBytes sha256 c) {op : Op} {a : Answer op} (hx : Exec encrypts c op a c') :
    Inv encrypts openFromBytes sha256 c' := by
  cases hx with
  | fetch s _ => exact h.congr rfl rfl rfl subset_rfl (Set.subset_insert s _) rfl
  | put n => exact h.congr rfl rfl rfl (Set.subset_insert _ _) subset_rfl rfl
  | _ => exact h.congr rfl rfl rfl subset_rfl subset_rfl rfl

theorem Inv.idle (h : Inv encrypts openFromBytes sha256 c) (hi : Idle c c') : Inv encrypts openFromBytes sha256 c' := by
  cases hi with
  | reload => exact ⟨h.stored, h.stored, h.cfg, nofun⟩
  | configure =>
    refine ⟨fun cfg hl => ?_, h.stored, h.cfg, nofun⟩
    obtain rfl : cfg = {} := Option.some.inj (hl.symm.trans (Finmap.lookup_insert _))
    exact .inl rfl
  | _ => exact h.congr rfl rfl rfl subset_rfl subset_rfl rfl

/-- A call leaves in the configuration what it recorded. -/
theorem Inv.finishes (h : Inv encrypts openFromBytes sha256 c) {update : SyncConfig → SyncConfig}
    (hu : KeepsPointers update) {write : Write} {result : Except SyncError (SyncOutcome × SyncPointers)}
    (hr : Recorded encrypts openFromBytes sha256 c (pointersAfter c.cfg result))
    {returned : Except SyncError SyncOutcome} {registry : Registry}
    (hs : syncNowWithTransport c.registry c.vaultName c.cfg update write result = (returned, registry))
    (exact : returned.isOk = true → ∃ v bytes synced,
      Exact encrypts openFromBytes sha256 c (pointersAfter c.cfg result) v bytes synced) :
    Inv encrypts openFromBytes sha256 { c with registry := registry, succeeded := returned.isOk } := by
  rcases syncNowWithTransport_configures hu hs with ⟨rfl, hok⟩ | ⟨new, hp, hv, hst, hok⟩
  · refine h.congr rfl rfl rfl subset_rfl subset_rfl hok
  · have recorded : Recorded encrypts openFromBytes sha256 c new.pointers := by rw [hp]; exact hr
    refine ⟨fun cfg hl => ?_, fun cfg hl => ?_, h.cfg.mono subset_rfl subset_rfl, fun hr => ?_⟩
    · obtain rfl : new = cfg := Option.some.inj (hv.symm.trans hl)
      exact recorded.mono subset_rfl subset_rfl
    · rcases hst with hst | hst
      · exact (h.stored cfg (by rw [← hst]; exact hl)).mono subset_rfl subset_rfl
      · obtain rfl : new = cfg := Option.some.inj (hst.symm.trans hl)
        exact recorded.mono subset_rfl subset_rfl
    · obtain ⟨v, bytes, synced, he⟩ := exact hr
      exact ⟨new, v, bytes, synced, hv, hok hr, by rw [hp]; exact { he with }⟩

theorem client_proof : (client encrypts openFromBytes sha256).Proof (fun _ => True)
    (fun _ c => Inv encrypts openFromBytes sha256 c) (fun _ _ => True)
    (fun c a => ∃ v bytes synced, Exact encrypts openFromBytes sha256 c a.2 v bytes synced) (fun _ _ => True) where
  exec _ h _ hx := ⟨trivial, h.exec hx⟩
  stable _ _ _ _ _ ho := ho
  begins := by
    rintro _ c c' p - h ⟨cfg, maxRetries, hl, rfl, rfl⟩
    have recorded := h.vaults cfg hl
    refine ⟨⟨fun _ hl => (h.vaults _ hl).mono subset_rfl subset_rfl, fun _ hl =>
      (h.stored _ hl).mono subset_rfl subset_rfl,
      recorded.mono subset_rfl subset_rfl, nofun⟩, ?_⟩
    refine Upholds.restrict (runStateMachine_settles (recorded.mono subset_rfl subset_rfl)) ?_
    rintro _ _ _ _ ⟨_, _, _, _, hx⟩
    exact hx
  returns := by
    rintro _ c a c' h ⟨v, bytes, synced, he⟩ ⟨update, write, hu, rfl⟩
    have recorded : Recorded encrypts openFromBytes sha256 c (pointersAfter c.cfg (.ok a)) := he.recorded
    exact h.finishes hu recorded rfl fun _ => ⟨v, bytes, synced, he⟩
  fails := by
    rintro _ c e c' h - ⟨update, write, hu, rfl⟩
    have recorded : Recorded encrypts openFromBytes sha256 c (pointersAfter c.cfg (.error e)) := h.cfg
    refine h.finishes hu recorded rfl fun hok => ?_
    have failed := syncNowWithTransport_error c.registry c.vaultName c.cfg update write e
    cases (congrArg Except.isOk failed).symm.trans hok
  idles h hi := h.idle hi
  crashes := by
    rintro _ c c' h ⟨db, rfl⟩
    exact ⟨h.stored, h.stored, h.cfg, nofun⟩

/-! ## When nothing changes -/

/-- Others leave the object alone, and what is asked for is answered. -/
def Quiet (c : Client) : (op : Op) → Answer op → Client → Prop
  | .head, .error _, _ | .readVaultBytes, .error _, _ => False
  | _, _, c' => c'.object = c.object

/-- A call with these pointers returns `AlreadyInSync` after no request but HEAD and the read of the file, and leaves
everything as it is. -/
def Quiesces (encrypts : Database → Bytes → Prop) (openFromBytes : Bytes → Except SyncError Database)
    (sha256 : Bytes → String) (c : Client) (last : SyncPointers) (maxRetries : Nat) : Prop :=
  ∀ c' r, Runs (fun c op a c' => Exec encrypts c op a c' ∧ Quiet c op a c') (fun c op => Machine.Panics c.machine op)
    { c with machine := c.machine.begun } (SyncRun.runStateMachine openFromBytes sha256 last maxRetries) c' r →
    r = .returned (.alreadyInSync, last) ∧ c'.machine.asked = [.head, .readVaultBytes] ∧
      c'.machine.disk = c.machine.disk ∧ c'.machine.database = c.machine.database ∧ c'.object = c.object

theorem Exact.quiesces {v : ObjectVersion} {bytes synced : Bytes}
    (h : Exact encrypts openFromBytes sha256 c last v bytes synced) (maxRetries : Nat) :
    Quiesces encrypts openFromBytes sha256 c last maxRetries := by
  intro c' r run
  have upholds : (SyncRun.runStateMachine openFromBytes sha256 last maxRetries).Upholds
      (fun _ op => op = .head ∨ op = .readVaultBytes) (fun c op a c' => Exec encrypts c op a c' ∧ Quiet c op a c')
      (fun c' a => a = (.alreadyInSync, last) ∧ c'.machine.asked = [.head, .readVaultBytes] ∧
        c'.machine.disk = c.machine.disk ∧ c'.machine.database = c.machine.database ∧ c'.object = c.object)
      (fun _ _ => False) { c with machine := c.machine.begun } := by
    refine ⟨.inl rfl, ?_⟩
    rintro a c₁ ⟨hx, hq⟩
    cases hx with
    | headFails object e => exact hq.elim
    | «local» hop _ => exact hop.elim
    | head object =>
      obtain rfl : object = c.object := hq
      refine ⟨.inr rfl, ?_⟩
      rintro a c₂ ⟨hx, hq⟩
      cases hx with
      | «local» _ hm =>
        cases hm with
        | readFails source => exact hq.elim
        | @read read hr =>
          obtain rfl : bytes = read := Option.some.inj (h.file.symm.trans hr)
          have remote : decide (c.object.map (·.version) ≠ last.remoteEtag.map ObjectVersion.mk) = false := by
            simp [h.object, h.pointers]
          have «local» : decide (some (sha256 bytes) ≠ last.localSha256) = false := by simp [h.pointers]
          simp only [Program.bind, Program.ofExcept, remote, «local»]
          exact ⟨rfl, rfl, rfl, rfl, rfl⟩
  cases r with
  | returned a =>
    obtain ⟨rfl, h⟩ := upholds.returned run
    exact ⟨rfl, h⟩
  | failed e => exact (upholds.failed run).elim
  | panicked =>
    refine (upholds.not_panicked ?_ run).elim
    rintro c op (rfl | rfl) ⟨_, _, he, _⟩ <;> cases he

/-- Nothing has been synced yet. -/
structure Configured (c : Client) : Prop where
  cfg : c.cfg.pointers = {}
  vaults : ∀ cfg, c.registry.vaults.lookup c.vaultName = some cfg → cfg.pointers = {}
  stored : ∀ cfg, c.registry.stored.lookup c.vaultName = some cfg → cfg.pointers = {}
  succeeded : c.succeeded = false

end Client

open Client in
/-- After a call that returned `Ok`, at whatever point of a client's history, the stored pointers are exact, and when
nothing changes the next call has nothing to do. -/
theorem pointers_exact {encrypts : Database → Bytes → Prop} {openFromBytes : Bytes → Except SyncError Database}
    {sha256 : Bytes → String} {s t : System.State Op Answer SyncError (SyncOutcome × SyncPointers) Unit Client Unit}
    (hs : s.running () = none) (hc : (s.party ()).Configured)
    (hr : System.Reachable (client encrypts openFromBytes sha256) s t) (hok : (t.party ()).succeeded = true) :
    ∃ cfg v bytes synced, (t.party ()).registry.vaults.lookup (t.party ()).vaultName = some cfg ∧
      (t.party ()).registry.stored.lookup (t.party ()).vaultName = some cfg ∧
      Exact encrypts openFromBytes sha256 (t.party ()) cfg.pointers v bytes synced ∧
      ∀ maxRetries, Quiesces encrypts openFromBytes sha256 (t.party ()) cfg.pointers maxRetries := by
  have start : Inv encrypts openFromBytes sha256 (s.party ()) :=
    ⟨fun cfg h => .inl (hc.vaults cfg h), fun cfg h => .inl (hc.stored cfg h), .inl hc.cfg, fun h => by
      rw [hc.succeeded] at h; cases h⟩
  have holds := (@client_proof encrypts openFromBytes sha256).reachable
    ⟨trivial, fun _ => start, fun _ p hp => by rw [hs] at hp; cases hp⟩ hr
  obtain ⟨cfg, v, bytes, synced, hcfg, hstored, he⟩ := (holds.party ()).succeeded hok
  exact ⟨cfg, v, bytes, synced, hcfg, hstored, he, he.quiesces⟩

/-- A client before its first sync. -/
def firstSync : System.State Op Answer SyncError (SyncOutcome × SyncPointers) Unit Client Unit where
  shared := ()
  party _ :=
    { machine := Machine.fresh, vaultName := "work", cfg := {}, object := none
      registry := ⟨Finmap.singleton "work" {}, Finmap.singleton "work" {}⟩ }
  running _ := none

/-- Saves write two bytes, which all hash alike and all open as the empty vault. -/
abbrev TwoByteSaves (_ : Database) (bytes : Bytes) : Prop := bytes.length = 2
abbrev opensEmpty (_ : Bytes) : Except SyncError Database := .ok Machine.fresh.database

theorem firstSync_configured : (firstSync.party ()).Configured := by
  have unsynced : (firstSync.party ()).registry.vaults.lookup "work" = some ({} : SyncConfig) := rfl
  refine ⟨rfl, fun cfg h => ?_, fun cfg h => ?_, rfl⟩
  · cases unsynced.symm.trans h; rfl
  · cases unsynced.symm.trans h; rfl

theorem pointers_exact_seeded : ∃ t, System.Reachable (client TwoByteSaves opensEmpty fun _ => "hash") firstSync t ∧
    ∃ cfg v bytes synced, (t.party ()).registry.vaults.lookup (t.party ()).vaultName = some cfg ∧
      (t.party ()).registry.stored.lookup (t.party ()).vaultName = some cfg ∧
      Client.Exact TwoByteSaves opensEmpty (fun _ => "hash") (t.party ()) cfg.pointers v bytes synced ∧
      ∀ maxRetries, Client.Quiesces TwoByteSaves opensEmpty (fun _ => "hash") (t.party ()) cfg.pointers maxRetries := by
  have began : System.Reachable (client TwoByteSaves opensEmpty fun _ => "hash") firstSync _ :=
    .step .start (.begin () rfl ⟨{}, 3, rfl, rfl, rfl⟩)
  have head := began.step (.request () (g := ()) rfl (.head none))
  have read := head.step (.request () (g := ()) rfl (.local trivial (.read (show _ = some [1] from rfl))))
  have put := read.step (.request () (g := ()) rfl (.put ⟨"seed"⟩))
  have reach := put.step (.return () rfl ⟨id, .done, fun _ => rfl, rfl⟩)
  exact ⟨_, reach, pointers_exact rfl firstSync_configured reach rfl⟩

end Falach
