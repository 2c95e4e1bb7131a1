import Falach.Core.Registry
import Falach.Lib.Ownership
/-!
# Processes that share a registry file

Each process loads the registry, edits it in memory and saves it, or updates it in one call, whenever it likes. What is
saved is what the file held just before, with the edits of the process.
-/

namespace Falach

open Keepass Program VaultRegistry

variable {V : Type}

/-! ## Edits -/

/-- A change of a registry in memory. -/
inductive Edit (V : Type) where
  | register (vault : RegisteredVault V)
  | deregister (name : String) (removeFile : Option (String → Except VaultError Unit))
  | updateExtra (name : String) (update : Extra registeredVaultKeys V → Extra registeredVaultKeys V)

def Edit.apply (r : VaultRegistry V) : Edit V → Except VaultError (VaultRegistry V)
  | .register vault => r.register vault
  | .deregister name removeFile => do return (← r.deregister name removeFile).2
  | .updateExtra name update => r.updateExtra name update

def applyAll (r : VaultRegistry V) (edits : List (Edit V)) : Except VaultError (VaultRegistry V) :=
  edits.foldlM Edit.apply r

def VaultRegistry.names (r : VaultRegistry V) : List String := r.vaults.map (·.name)

/-- The registry with another baseline. -/
def VaultRegistry.rebased (r : VaultRegistry V) (baseline : Option String) : VaultRegistry V :=
  { r with baseline := baseline }

variable {r r' : VaultRegistry V} {edit : Edit V} {edits : List (Edit V)} {name : String}

/-- An edit looks at the vaults, and changes nothing else. -/
theorem Edit.apply_eq (h : edit.apply r = .ok r') (baseline : Option String) :
    r'.version = r.version ∧ r'.baseline = r.baseline ∧
      edit.apply (r.rebased baseline) = .ok (r'.rebased baseline) := by
  cases edit with
  | register vault =>
    simp only [Edit.apply, VaultRegistry.register] at h
    split at h
    · cases h
    · rename_i hnew
      cases h
      exact ⟨rfl, rfl, if_neg hnew⟩
  | deregister name removeFile =>
    obtain ⟨⟨vault, t⟩, h, ht⟩ := Loop.bind_ok.1 h
    obtain ⟨index, hindex, hget, hremove, rfl⟩ := deregister_ok.1 h
    cases ht
    exact ⟨rfl, rfl, Loop.bind_ok.2 ⟨(vault, _), deregister_ok.2 ⟨index, hindex, hget, hremove, rfl⟩, rfl⟩⟩
  | updateExtra name update =>
    simp only [Edit.apply, VaultRegistry.updateExtra] at h
    split at h
    · cases h
    · rename_i index hindex
      cases h
      have hindex : (r.rebased baseline).vaults.findIdx? (fun v => v.name = name) = some index := hindex
      refine ⟨rfl, rfl, ?_⟩
      simp only [Edit.apply, VaultRegistry.updateExtra, hindex]
      rfl

theorem applyAll_eq (h : applyAll r edits = .ok r') (baseline : Option String) :
    r'.version = r.version ∧ r'.baseline = r.baseline ∧ applyAll (r.rebased baseline) edits =
      .ok (r'.rebased baseline) := by
  induction edits generalizing r with
  | nil => cases h; exact ⟨rfl, rfl, rfl⟩
  | cons edit edits ih =>
    obtain ⟨t, ht, h⟩ := Loop.foldlM_cons_ok.1 h
    obtain ⟨hversion, hbase, hstep⟩ := Edit.apply_eq ht baseline
    obtain ⟨hversion', hbase', hrest⟩ := ih h
    exact ⟨hversion'.trans hversion, hbase'.trans hbase, Loop.foldlM_cons_ok.2 ⟨_, hstep, hrest⟩⟩

theorem map_modify_same {α β : Type} {f : α → α} {g : α → β} (h : ∀ a, g (f a) = g a) (l : List α) (i : Nat) :
    (l.modify i f).map g = l.map g := by
  induction l generalizing i with
  | nil => cases i <;> rfl
  | cons a l ih =>
    cases i with
    | zero => simp [h]
    | succ i => simp [ih]

theorem Edit.apply_unique (h : edit.apply r = .ok r') (hr : r.names.Nodup) : r'.names.Nodup := by
  cases edit with
  | register vault =>
    simp only [Edit.apply, VaultRegistry.register] at h
    split at h
    · cases h
    · rename_i hnew
      cases h
      have hnew : vault.name ∉ r.names := by simpa [VaultRegistry.names] using hnew
      change (List.map (·.name) (r.vaults ++ [vault])).Nodup
      rw [List.map_append, List.map_singleton]
      exact List.nodup_append.2 ⟨hr, List.nodup_singleton _, fun a ha b hb => by
        rw [List.mem_singleton.1 hb]; rintro rfl; exact hnew ha⟩
  | deregister name removeFile =>
    obtain ⟨⟨vault, t⟩, h, ht⟩ := Loop.bind_ok.1 h
    obtain ⟨index, -, -, -, rfl⟩ := deregister_ok.1 h
    cases ht
    exact hr.sublist ((List.eraseIdx_sublist _ _).map _)
  | updateExtra name update =>
    simp only [Edit.apply, VaultRegistry.updateExtra] at h
    split at h
    · cases h
    · cases h
      change (List.map (·.name) (r.vaults.modify _ _)).Nodup
      rw [map_modify_same]
      · exact hr
      · intro v; rfl

theorem applyAll_unique (h : applyAll r edits = .ok r') (hr : r.names.Nodup) : r'.names.Nodup :=
  Loop.foldlM_inv (fun r : VaultRegistry V => r.names.Nodup) (fun _ _ _ _ hn ht => Edit.apply_unique ht hn) h hr

/-! ## Processes -/

/-- What a call is to write: these edits, and for `save` the registry they led to. -/
structure Commit (V : Type) where
  edits : List (Edit V)
  saving : Option (VaultRegistry V) := none

/-- A replacement of the file. -/
structure RegistryWrite (V : Type) where
  before : Option String
  commit : Commit V
  body : String

/-- `vaults.toml` and its lock. `writes` is recorded for the proofs. -/
structure RegistryFile (V : Type) where
  contents : Option String
  locked : Bool := false
  writes : List (RegistryWrite V) := []

def RegistryFile.write (g : RegistryFile V) (commit : Commit V) (body : String) : RegistryFile V :=
  { g with contents := some body, writes := g.writes ++ [⟨g.contents, commit, body⟩] }

/-- A process, its registry, and the edits since that was read or written. `seen`, `committing` and `wrote` are recorded
for the proofs: what it read while it holds the lock, what its call is to write, and what it wrote. -/
structure RegistryProcess (V : Type) where
  registry : Option (VaultRegistry V) := none
  edits : List (Edit V) := []
  holds : Bool := false
  seen : Option (Option String) := none
  committing : Option (Commit V) := none
  wrote : Option (RegistryWrite V) := none

namespace RegistryProcess

/-- What a request does. Any may fail, and a write that fails may have replaced the file. -/
inductive Exec : RegistryFile V → RegistryProcess V → (op : RegistryOp) → RegistryAnswer op →
    RegistryFile V → RegistryProcess V → Prop where
  | ensureExists {g l} (a) : Exec g l .ensureExists a g l
  | acquire {g l} : g.locked = false → Exec g l .acquireExclusive (.ok ()) { g with locked := true }
      { l with holds := true }
  | acquireFails {g l} (e) : Exec g l .acquireExclusive (.error e) g l
  | read {g l} : Exec g l .readToString (.ok g.contents) g { l with seen := if l.holds then some g.contents else none }
  | readFails {g l} (e) : Exec g l .readToString (.error e) g l
  | write {g l body commit} : l.committing = some commit → Exec g l (.writeAtomic body) (.ok ()) (g.write commit body)
      { l with seen := none, wrote := some ⟨g.contents, commit, body⟩ }
  | writeUnconfirmed {g l body commit} (e) : l.committing = some commit →
      Exec g l (.writeAtomic body) (.error e) (g.write commit body) { l with seen := none }
  | writeFails {g l body} (e) : Exec g l (.writeAtomic body) (.error e) g l
  | unlock {g l} : Exec g l .unlock () { g with locked := false } { l with holds := false, seen := none }

/-- The calls of a process; one that begins holds no lock. -/
inductive Begins (toml : Toml V) (l : RegistryProcess V) : RegistryProcess V → RegistryRun (VaultRegistry V) →
    Prop where
  | load : l.holds = false → Begins toml l { l with committing := none, wrote := none } (load toml)
  | save {s : VaultRegistry V} : l.holds = false → l.registry = some s →
      Begins toml l { l with committing := some ⟨l.edits, some s⟩, wrote := none } (save toml s)
  | update (vault : String) (change : Extra registeredVaultKeys V → Extra registeredVaultKeys V) : l.holds = false →
      Begins toml l { l with committing := some ⟨[.updateExtra vault change], none⟩, wrote := none }
        (updateRegisteredExtra toml vault change)

/-- Between two calls the registry is edited, dropped, or made without looking at the file. -/
inductive Idles (l : RegistryProcess V) : RegistryProcess V → Prop where
  | withPaths : Idles l { l with registry := some withPaths, edits := [] }
  | edit {s s' : VaultRegistry V} (e : Edit V) : l.registry = some s → e.apply s = .ok s' →
      Idles l { l with registry := some s', edits := l.edits ++ [e] }
  | drop : Idles l { l with registry := none, edits := [] }

end RegistryProcess

/-- Processes on one registry file. One that dies in a call leaves the file as if its request had failed there, and the
system drops its lock. -/
def registryProcesses (toml : Toml V) :
    System RegistryOp RegistryAnswer VaultError (VaultRegistry V) (RegistryFile V) (RegistryProcess V) where
  exec := RegistryProcess.Exec
  begins := RegistryProcess.Begins toml
  returns l s l' := l' = { l with registry := some s, edits := [] }
  fails l _ l' := l' = l
  idles := RegistryProcess.Idles
  crashes _ _ := False

abbrev RegistryProcesses (V ι : Type) :=
  System.State RegistryOp RegistryAnswer VaultError (VaultRegistry V) (RegistryFile V) (RegistryProcess V) ι

/-! ## What is kept -/

/-- The names of the vaults in the file are distinct. -/
def UniqueNames (toml : Toml V) (contents : Option String) : Prop :=
  ∀ s, fromContents toml contents = .ok s → s.names.Nodup

/-- The registry is what `contents` holds, edited. -/
def Derives (toml : Toml V) (contents : Option String) (edits : List (Edit V)) (s : VaultRegistry V) : Prop :=
  ∃ loaded, fromContents toml contents = .ok loaded ∧ applyAll loaded edits = .ok s

/-- The write is the registry read from the file as it was just before, with the edits of its call. -/
def RegistryWrite.Based (toml : Toml V) (w : RegistryWrite V) : Prop :=
  ∃ s, Derives toml w.before w.commit.edits s ∧ toml.toStr s.onDisk = .ok w.body ∧ ∀ s' ∈ w.commit.saving, s' = s

/-- The writes lead from one content of the file to another, each from where the one before left it. -/
inductive Chain : Option String → List (RegistryWrite V) → Option String → Prop where
  | nil {contents} : Chain contents [] contents
  | write {start contents writes commit body} : Chain start writes contents →
      Chain start (writes ++ [⟨contents, commit, body⟩]) (some body)

/-- What holds of the file. -/
structure FileInv (toml : Toml V) (start : Option String) (g : RegistryFile V) : Prop where
  unique : UniqueNames toml g.contents
  based : ∀ w ∈ g.writes, w.Based toml
  chain : Chain start g.writes g.contents

/-- What holds of a process. -/
structure ProcessInv (toml : Toml V) (g : RegistryFile V) (l : RegistryProcess V) : Prop where
  locked : l.holds = true → g.locked = true
  seen : ∀ c ∈ l.seen, l.holds = true ∧ g.contents = c
  wrote : ∀ w ∈ l.wrote, w ∈ g.writes
  derived : ∀ s ∈ l.registry, Derives toml s.baseline l.edits s

/-- What a call may ask for: it writes under the lock, over what it saw. -/
def MayAsk (toml : Toml V) (l : RegistryProcess V) : RegistryOp → Prop
  | .writeAtomic body => l.holds = true ∧
      ∃ c ∈ l.seen, ∃ commit ∈ l.committing, (⟨c, commit, body⟩ : RegistryWrite V).Based toml
  | .unlock => l.holds = true
  | _ => True

/-- The registry is in the file as its call was to write it. -/
def Wrote (l : RegistryProcess V) (s : VaultRegistry V) : Prop :=
  ∀ commit ∈ l.committing, ∃ w ∈ l.wrote, w.commit = commit ∧ s.baseline = some w.body

/-- What a call may return. -/
def MayReturn (toml : Toml V) (l : RegistryProcess V) (s : VaultRegistry V) : Prop :=
  l.holds = false ∧ Derives toml s.baseline [] s ∧ Wrote l s

variable {toml : Toml V} {contents start : Option String} {body : String} {g g' : RegistryFile V}
  {l l' other : RegistryProcess V} {commit : Commit V}

/-! ## What is written -/

theorem fromContents_ok {s : VaultRegistry V} (h : fromContents toml contents = .ok s) :
    s.version = schemaVersion ∧ s.baseline = contents := by
  unfold fromContents at h
  split at h
  · cases h; exact ⟨rfl, rfl⟩
  · split at h
    · cases h
    · split at h
      · cases h
      · rename_i hversion
        cases h
        exact ⟨not_not.1 hversion, rfl⟩

theorem Derives.loaded {s : VaultRegistry V} (h : Derives toml contents edits s) :
    s.version = schemaVersion ∧ s.baseline = contents := by
  obtain ⟨loaded, hloaded, hedits⟩ := h
  obtain ⟨hversion, hbase⟩ := fromContents_ok hloaded
  obtain ⟨hversion', hbase', -⟩ := applyAll_eq hedits none
  exact ⟨hversion'.trans hversion, hbase'.trans hbase⟩

/-- A registry that was written is what the file holds. -/
theorem fromContents_toStr (htoml : toml.RoundTrips) {s : VaultRegistry V} (hversion : s.version = schemaVersion)
    (h : toml.toStr s.onDisk = .ok body) : fromContents toml (some body) = .ok (s.rebased (some body)) := by
  have hread := htoml _ _ h
  have hdisk : s.onDisk.version = schemaVersion := rfl
  simp only [fromContents, hread]
  rw [if_neg (not_not.2 hdisk)]
  simp only [onDisk, VaultRegistry.rebased, hversion]

theorem Derives.written (htoml : toml.RoundTrips) {s : VaultRegistry V} (hs : Derives toml contents edits s)
    (h : toml.toStr s.onDisk = .ok body) : Derives toml (some body) [] (s.rebased (some body)) :=
  ⟨_, fromContents_toStr htoml hs.loaded.1 h, rfl⟩

theorem UniqueNames.write (htoml : toml.RoundTrips) {w : RegistryWrite V} (hw : w.Based toml)
    (h : UniqueNames toml w.before) : UniqueNames toml (some w.body) := by
  obtain ⟨s, hs, hbody, -⟩ := hw
  intro s' hs'
  rw [fromContents_toStr htoml hs.loaded.1 hbody, Except.ok.injEq] at hs'
  subst hs'
  obtain ⟨loaded, hloaded, hedits⟩ := hs
  have hnames : s.names.Nodup := applyAll_unique hedits (h loaded hloaded)
  exact hnames

/-! ## One request -/

theorem FileInv.write (htoml : toml.RoundTrips) (hi : FileInv toml start g)
    (hw : (⟨g.contents, commit, body⟩ : RegistryWrite V).Based toml) : FileInv toml start (g.write commit body) where
  unique := UniqueNames.write htoml hw hi.unique
  based w hmem := by
    rcases List.mem_append.1 hmem with hmem | hmem
    · exact hi.based w hmem
    · rw [List.mem_singleton.1 hmem]; exact hw
  chain := .write hi.chain

/-- Who writes holds the lock, so what it saw is what the file holds. -/
theorem MayAsk.based (hl : ProcessInv toml g l) (h : MayAsk toml l (.writeAtomic body))
    (hc : l.committing = some commit) :
    l.holds = true ∧ (⟨g.contents, commit, body⟩ : RegistryWrite V).Based toml := by
  obtain ⟨hholds, c, hseen, commit', hcommit, hbased⟩ := h
  obtain ⟨-, rfl⟩ := hl.seen c hseen
  obtain rfl : commit' = commit := Option.some.inj (hcommit.symm.trans hc)
  exact ⟨hholds, hbased⟩

/-- A process that holds no lock has seen nothing, so a write is no news to it. -/
theorem ProcessInv.write (ho : ProcessInv toml g other) (hfree : other.holds ≠ true) :
    ProcessInv toml (g.write commit body) other where
  locked := ho.locked
  seen c hc := absurd (ho.seen c hc).1 hfree
  wrote w hw := List.mem_append_left _ (ho.wrote w hw)
  derived := ho.derived

theorem registry_exec (htoml : toml.RoundTrips) {op : RegistryOp} {a : RegistryAnswer op} (hi : FileInv toml start g)
    (hl : ProcessInv toml g l) (hask : MayAsk toml l op) (h : RegistryProcess.Exec g l op a g' l') :
    FileInv toml start g' ∧ ProcessInv toml g' l' := by
  cases h with
  | acquire hfree =>
    refine ⟨{ hi with }, { hl with locked := fun _ => rfl, seen := fun c hc => ⟨rfl, (hl.seen c hc).2⟩ }⟩
  | read =>
    refine ⟨hi, { hl with seen := fun c hc => ?_ }⟩
    by_cases hh : l.holds = true
    · simp only [hh, if_true, Option.mem_some_iff] at hc
      exact ⟨hh, hc⟩
    · simp [hh] at hc
  | write hc =>
    obtain ⟨-, hbased⟩ := hask.based hl hc
    refine ⟨hi.write htoml hbased, { hl with seen := nofun, wrote := fun w hw => ?_ }⟩
    cases hw
    exact List.mem_append_right _ (List.mem_singleton_self _)
  | writeUnconfirmed e hc =>
    obtain ⟨-, hbased⟩ := hask.based hl hc
    exact ⟨hi.write htoml hbased, {
      hl with seen := nofun, wrote := fun w hw => List.mem_append_left _ (hl.wrote w hw) }⟩
  | unlock => exact ⟨{ hi with }, { hl with locked := nofun, seen := nofun }⟩
  | _ => exact ⟨hi, hl⟩

theorem registry_stable {op : RegistryOp} {a : RegistryAnswer op} (hl : ProcessInv toml g l) (hask : MayAsk toml l op)
    (h : RegistryProcess.Exec g l op a g' l') (ho : ProcessInv toml g other)
    (hone : l.holds = true → ¬ other.holds = true) :
    ProcessInv toml g' other ∧ (l'.holds = true → ¬ other.holds = true) := by
  cases h with
  | acquire hfree =>
    have free : ¬ other.holds = true := fun hh => by simp [ho.locked hh] at hfree
    exact ⟨{ ho with locked := fun _ => rfl }, fun _ => free⟩
  | write hc => exact ⟨ho.write (hone (hask.based hl hc).1), hone⟩
  | writeUnconfirmed e hc => exact ⟨ho.write (hone (hask.based hl hc).1), hone⟩
  | unlock => exact ⟨{ ho with locked := fun hh => absurd hh (hone hask) }, nofun⟩
  | _ => exact ⟨ho, hone⟩

/-! ## A call -/

/-- From `l`, the call asks only for what it may and ends with `Q`, holding no lock if it fails, whatever the other
processes do. -/
abbrev KeepsRegistry {α : Type} (toml : Toml V) (start : Option String) (Q : RegistryProcess V → α → Prop)
    (l : RegistryProcess V)
    (p : RegistryRun α) : Prop :=
  p.Upholds (MayAsk toml)
    (fun l op a l' => ∃ g g', FileInv toml start g ∧ ProcessInv toml g l ∧ RegistryProcess.Exec g l op a g' l') Q
    (fun l _ => l.holds = false) l

section Requests

variable {α : Type} {Q : RegistryProcess V → α → Prop}

/-- What is read under the lock stays so. -/
theorem VaultRegistry.readToString_spec {f : Except VaultError (Option String) → RegistryRun α} (hl : l.holds = true)
    (error : ∀ e, KeepsRegistry toml start Q l (f (.error e)))
    (ok : ∀ c, KeepsRegistry toml start Q { l with seen := some c } (f (.ok c))) :
    KeepsRegistry toml start Q l (request RegistryAnswer .readToString >>= f) := by
  refine .request trivial ?_
  rintro a l' ⟨g, g', -, -, hx⟩
  cases hx with
  | read => rw [if_pos hl]; exact ok _
  | readFails e => exact error e

/-- What a call does under the lock ends under the lock, and may return what it may after the lock is gone. -/
theorem VaultRegistry.underLock_spec {body : RegistryRun (Except VaultError α)} (hl : l.holds = false)
    (hbody : KeepsRegistry toml start (fun l r => l.holds = true ∧ ∀ a, r = .ok a →
      Q { l with holds := false, seen := none } a)
      { l with holds := true } body) : KeepsRegistry toml start Q l (underLock body) := by
  refine .bind (.request trivial ?_)
  rintro created l' ⟨g, g', -, -, hx⟩
  cases hx
  cases created with
  | error e => exact hl
  | ok u =>
    refine Upholds.bind (.request trivial ?_)
    rintro acquired l' ⟨g, g', -, -, hx⟩
    cases hx with
    | acquireFails e => exact hl
    | acquire hfree =>
      refine Upholds.bind (hbody.mono fun l r hr => .request hr.1 ?_)
      rintro unlocked l' ⟨g, g', -, -, hx⟩
      cases hx
      cases r with
      | error e => exact rfl
      | ok a => exact hr.2 a rfl

/-- A registry read under the lock and edited as the call is to edit it may be written. -/
theorem VaultRegistry.saveUnlocked_spec (htoml : toml.RoundTrips) {s : VaultRegistry V} (hl : l.holds = true)
    (hseen : l.seen = some contents) (hc : l.committing = some commit) (hs : Derives toml contents commit.edits s)
    (hsaving : ∀ s' ∈ commit.saving, s' = s) :
    KeepsRegistry toml start (fun l r => l.holds = true ∧ ∀ s, r = .ok s →
      MayReturn toml { l with holds := false, seen := none } s)
      l (saveUnlocked toml s) := by
  unfold saveUnlocked
  split
  · exact ⟨hl, nofun⟩
  · rename_i body hbody
    refine .request ⟨hl, contents, hseen, commit, hc, s, hs, hbody, hsaving⟩ ?_
    rintro written l' ⟨g, g', hi, hinv, hx⟩
    cases hx with
    | write hc' =>
      obtain rfl : commit = _ := Option.some.inj (hc.symm.trans hc')
      refine ⟨hl, fun s' hs' => ?_⟩
      cases hs'
      refine ⟨rfl, hs.written htoml hbody, fun c hcommit => ⟨_, rfl, ?_, rfl⟩⟩
      exact Option.some.inj (hc.symm.trans hcommit)
    | writeUnconfirmed e hc' => exact ⟨hl, nofun⟩
    | writeFails e => exact ⟨hl, nofun⟩

theorem VaultRegistry.save_spec (htoml : toml.RoundTrips) {s : VaultRegistry V} (hl : l.holds = false)
    (hc : l.committing = some ⟨edits, some s⟩) (hs : Derives toml s.baseline edits s) :
    KeepsRegistry toml start (MayReturn toml) l (save toml s) := by
  refine underLock_spec hl (readToString_spec rfl (fun e => ⟨rfl, nofun⟩) fun current => ?_)
  by_cases hcurrent : current = s.baseline
  · simp only [hcurrent, ne_eq, not_true_eq_false, if_false]
    exact saveUnlocked_spec htoml rfl rfl hc hs fun s' hs' => (Option.some.inj hs').symm
  · simp only [ne_eq, hcurrent, not_false_eq_true, if_true]
    exact ⟨rfl, nofun⟩

theorem VaultRegistry.updateRegisteredExtra_spec (htoml : toml.RoundTrips)
    {update : Extra registeredVaultKeys V → Extra registeredVaultKeys V} (hl : l.holds = false)
    (hc : l.committing = some ⟨[.updateExtra name update], none⟩) :
    KeepsRegistry toml start (MayReturn toml) l (updateRegisteredExtra toml name update) := by
  refine underLock_spec hl (readToString_spec rfl (fun e => ⟨rfl, nofun⟩) fun current => ?_)
  cases hlatest : (do (← fromContents toml current).updateExtra name update) with
  | error e =>
    simp only [hlatest]
    exact ⟨rfl, nofun⟩
  | ok latest =>
    simp only [hlatest]
    obtain ⟨loaded, hloaded, hupdate⟩ := Loop.bind_ok.1 hlatest
    have hs : Derives toml current [.updateExtra name update] latest :=
      ⟨loaded, hloaded, Loop.foldlM_cons_ok.2 ⟨latest, hupdate, rfl⟩⟩
    exact saveUnlocked_spec htoml rfl rfl hc hs nofun

theorem VaultRegistry.load_spec (hl : l.holds = false) (hc : l.committing = none) :
    KeepsRegistry toml start (MayReturn toml) l (load toml) := by
  refine .bind (.request trivial ?_)
  rintro a l' ⟨g, g', -, -, hx⟩
  cases hx with
  | readFails e => exact hl
  | read =>
    change KeepsRegistry toml start (MayReturn toml) { l with seen := _ } (ofExcept (fromContents toml g.contents))
    cases hload : fromContents toml g.contents with
    | error e => exact hl
    | ok s =>
      have hbase := (fromContents_ok hload).2
      refine ⟨hl, ⟨s, by rw [hbase, hload], rfl⟩, ?_⟩
      intro commit hcommit
      cases hc.symm.trans hcommit

end Requests

/-! ## Every run -/

theorem registryProcesses_proof (htoml : toml.RoundTrips) (start : Option String) :
    (registryProcesses toml).OwnedProof (fun l => l.holds = true) (FileInv toml start) (ProcessInv toml) (MayAsk toml)
      (MayReturn toml) (fun l _ => l.holds = false) where
  exec := registry_exec htoml
  stable hi hl hask hx other ho hone := registry_stable hl hask hx ho hone
  begins hi hl hb := by
    cases hb with
    | load hfree =>
      exact ⟨{ hl with wrote := nofun }, id, load_spec hfree rfl⟩
    | save hfree hr =>
      exact ⟨{ hl with wrote := nofun }, id, save_spec htoml hfree rfl (hl.derived _ hr)⟩
    | update vault change hfree =>
      exact ⟨{ hl with wrote := nofun }, id, updateRegisteredExtra_spec htoml hfree rfl⟩
  returns {g l s l'} hl hs h := by
    subst h
    refine ⟨{ hl with derived := fun s' hs' => ?_ }, id⟩
    cases hs'
    exact hs.2.1
  fails hl _ h := by
    subst h
    exact ⟨hl, id⟩
  idles {g l l'} hl h := by
    cases h with
    | withPaths =>
      refine ⟨{ hl with derived := fun s hs => ?_ }, id⟩
      cases hs
      exact ⟨_, rfl, rfl⟩
    | edit e hr happly =>
      refine ⟨{ hl with derived := fun s hs => ?_ }, id⟩
      cases hs
      obtain ⟨loaded, hloaded, hedits⟩ := hl.derived _ hr
      obtain ⟨-, hbase, -⟩ := Edit.apply_eq happly none
      refine ⟨loaded, by rw [hbase, hloaded], Loop.foldlM_append_ok.2 ⟨_, hedits, ?_⟩⟩
      exact Loop.foldlM_cons_ok.2 ⟨_, happly, rfl⟩
    | drop => exact ⟨{ hl with derived := nofun }, id⟩
  crashes _ h := h.elim

/-- No process has a registry, and the file, if it is there, names each vault once. -/
structure RegistryStart {ι : Type} (toml : Toml V) (s : RegistryProcesses V ι) : Prop where
  idle : ∀ i, s.running i = none
  fresh : ∀ i, s.party i = {}
  unlocked : s.shared.locked = false
  unwritten : s.shared.writes = []
  unique : UniqueNames toml s.shared.contents

theorem RegistryStart.holds {ι : Type} [DecidableEq ι] {s : RegistryProcesses V ι} (h : RegistryStart toml s) :
    System.OwnedProof.Holds (registryProcesses toml) (fun l => l.holds = true) (FileInv toml s.shared.contents)
      (ProcessInv toml) (MayAsk toml) (MayReturn toml) (fun l _ => l.holds = false) s where
  shared := ⟨h.unique, by rw [h.unwritten]; nofun, by rw [h.unwritten]; exact .nil⟩
  party i := by
    rw [h.fresh i]
    exact ⟨nofun, nofun, nofun, nofun⟩
  one i j _ hi := by
    rw [h.fresh i] at hi
    cases hi
  running i p hp := by
    rw [h.idle i] at hp
    cases hp

/-- Whatever the processes do, the file is a chain of writes that each take up what the one before left, its names stay
distinct, and a call that returns has written what it was to write. -/
theorem registry_updates_kept {ι : Type} [DecidableEq ι] (htoml : toml.RoundTrips) {s t : RegistryProcesses V ι}
    (hs : RegistryStart toml s) (hr : System.Reachable (registryProcesses toml) s t) :
    (∀ w ∈ t.shared.writes, w.Based toml ∧ ∀ r ∈ w.commit.saving, r.baseline = w.before) ∧
      Chain s.shared.contents t.shared.writes t.shared.contents ∧ UniqueNames toml t.shared.contents ∧
      ∀ i r, t.running i = some (.done r) → ∀ commit ∈ (t.party i).committing, ∃ w ∈ t.shared.writes,
        w.commit = commit ∧ r.baseline = some w.body := by
  have h := (registryProcesses_proof htoml s.shared.contents).reachable hs.holds hr
  refine ⟨fun w hw => ?_, h.shared.chain, h.shared.unique, fun i r hdone commit hcommit => ?_⟩
  · obtain ⟨s, hs, hbody, hsaving⟩ := h.shared.based w hw
    refine ⟨⟨s, hs, hbody, hsaving⟩, fun r hr => ?_⟩
    rw [hsaving r hr]
    exact hs.loaded.2
  · obtain ⟨-, -, hwrote⟩ := h.running i _ hdone
    obtain ⟨w, hw, heq⟩ := hwrote commit hcommit
    exact ⟨w, (h.party i).wrote w hw, heq⟩

def personal : RegisteredVault Unit := ⟨"personal", "/v/personal.kdbx", "2026-05-17T10:00:00-06:00", none, .empty⟩

/-- A registry with one vault and its text; no other registry has a text. -/
def personalToml : Toml Unit where
  fromStr contents := if contents = "[[vault]]" then some ⟨schemaVersion, [personal], .empty⟩ else none
  toStr d := if d = ⟨schemaVersion, [personal], .empty⟩ then .ok "[[vault]]" else .error "unsupported"

theorem personalToml_roundTrips : personalToml.RoundTrips := by
  intro d body h
  simp only [personalToml] at h ⊢
  split at h
  · rename_i hd
    cases h
    rw [if_pos rfl, hd]
  · cases h

/-- Two processes and no file yet. -/
def noRegistryFile : RegistryProcesses Unit Bool where
  shared := { contents := none }
  party _ := {}
  running _ := none

theorem noRegistryFile_start : RegistryStart personalToml noRegistryFile :=
  ⟨fun _ => rfl, fun _ => rfl, rfl, rfl, fun s hs => by cases hs; exact List.nodup_nil⟩

/-- Both processes load; one registers a vault and saves. -/
theorem registry_updates_kept_saved : ∃ t r, System.Reachable (registryProcesses personalToml) noRegistryFile t ∧
    t.running true = some (.done r) ∧ Chain none t.shared.writes (some "[[vault]]") ∧
      ∃ w ∈ t.shared.writes, w.Based personalToml ∧ r.baseline = some w.body := by
  have run := System.Reachable.start (S := registryProcesses personalToml) (s := noRegistryFile)
  replace run := run.step (.begin true rfl (.load rfl))
  replace run := run.step (.begin false rfl (.load rfl))
  replace run := run.step (.request true rfl .read)
  replace run := run.step (.request false rfl .read)
  replace run := run.step (.return true rfl rfl)
  replace run := run.step (.idle true rfl (.edit (.register personal) rfl rfl))
  replace run := run.step (.begin true rfl (.save rfl rfl))
  replace run := run.step (.request true rfl (.ensureExists (.ok ())))
  replace run := run.step (.request true rfl (.acquire rfl))
  replace run := run.step (.request true rfl .read)
  replace run := run.step (.request true rfl (.write rfl))
  replace run := run.step (.request true rfl .unlock)
  obtain ⟨hbased, hchain, -, hdone⟩ := registry_updates_kept personalToml_roundTrips noRegistryFile_start run
  obtain ⟨w, hw, -, hbody⟩ := hdone true _ rfl _ rfl
  exact ⟨_, _, run, rfl, hchain, w, hw, (hbased w hw).1, hbody⟩

end Falach
