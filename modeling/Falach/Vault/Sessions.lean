import Falach.Vault.Handles
/-!
# Sessions with a vault file

Any number of sessions create, open, change and save one vault, each in its own process and each ending wherever it likes.
The lock of a session lasts from before it reads the file to after it last writes it, so what a session replaces is what
it has read or written last.
-/

namespace Falach

open Keepass Program
open Keepass.Kdbx4 (SaveRun)

/-! ## Sessions -/

/-- What is done with an open vault; `edit` is any use of `database_mut`. -/
inductive Command where
  | edit (change : Kdbx4.DatabaseConfig × Database → Kdbx4.DatabaseConfig × Database)
  | save (choices : SaveChoices)
  | changeMasterPassword (current new : String) (choices : SaveChoices)
  | replaceDatabase (newConfig : Kdbx4.DatabaseConfig) (newDb : Database)

/-- A command; after one that fails the handle is what it was. -/
def Command.run (lib : Libraries) (path : String) (v : VaultHandle) : Command → HandleRun VaultHandle
  | edit change =>
    let (config, database) := change (v.config, v.database)
    return { v with config := config, database := database }
  | save choices => do
    let _ ← v.save lib choices
    return v
  | changeMasterPassword current new choices => do
    let (_, v) ← v.changeMasterPassword lib path current new choices
    return v
  | replaceDatabase newConfig newDb => return ((v.replaceDatabase newConfig newDb).toOption).getD v

/-- The commands, one after the other; then the handle is dropped. -/
def useHandle (lib : Libraries) (path : String) : List Command → VaultHandle → HandleRun Unit
  | [], _ => request HandleAnswer .unlock
  | command :: commands, v => do
    let v ← command.run lib path v
    useHandle lib path commands v

/-- From opening or creating the vault to dropping the handle. -/
inductive HandleSession where
  | create (master : String) (keyfile : Option Keyfile) (kdf : KdfParams) (rootId : GroupId) (now : NaiveDateTime)
      (choices : SaveChoices) (commands : List Command)
  | readWrite (master : String) (keyfile : Option Keyfile) (commands : List Command)
  | readOnly (master : String) (keyfile : Option Keyfile)

def HandleSession.program (lib : Libraries) (path : String) : HandleSession → HandleRun Unit
  | create master keyfile kdf rootId now choices commands => do
    let v ← VaultHandle.create lib path master keyfile kdf rootId now choices
    useHandle lib path commands v
  | readWrite master keyfile commands => do
    let v ← VaultHandle.open lib path master keyfile
    useHandle lib path commands v
  | readOnly master keyfile => do
    let _ ← VaultReadOnly.open lib path master keyfile
    request HandleAnswer .unlock

/-! ## The file -/

/-- A replacement of the file: what it held before, and what the session had last read or written of it. -/
structure VaultWrite where
  before : Option Bytes
  base : Option Bytes
  body : Bytes

/-- The vault file. `writes` is recorded for the proofs. -/
structure VaultFile where
  contents : Option Bytes
  writes : List VaultWrite := []

/-- What a session holds. `base` and `reserved` are recorded for the proofs: what it has last read or written of the
file, and whether it has made the file and not written it yet. -/
structure Held where
  lock : Option LockKind := none
  base : Option Bytes := none
  reserved : Bool := false

/-- Whether a lock may be had while another is held. -/
def LockKind.Free (kind : LockKind) (other : Option LockKind) : Prop :=
  other = none ∨ (kind = .shared ∧ other = some .shared)

/-- A session replaces the file. -/
def VaultFile.replace (g : VaultFile) (base : Option Bytes) (body : Bytes) : VaultFile where
  contents := some body
  writes := g.writes ++ [⟨g.contents, base, body⟩]

section

variable {ι : Type}

/-- What a request does. Each may fail with any error, and a replacement that fails may have happened. -/
inductive Held.Exec (g : VaultFile) (held : ι → Held) (i : ι) :
    (op : HandleOp) → HandleAnswer op → VaultFile → Held → Prop where
  | pathExists : g.contents ≠ none → Exec g held i .pathExists true g (held i)
  | pathMissing : Exec g held i .pathExists false g (held i)
  | createDirAll (a) : Exec g held i .createDirAll a g (held i)
  | createNew : g.contents = none →
      Exec g held i .createNew (.ok ()) { g with contents := some [] } { held i with reserved := true, base := some [] }
  | createNewFails (e) : Exec g held i .createNew (.error e) g (held i)
  | readKeyfile {path} (a) : Exec g held i (.readKeyfile path) a g (held i)
  | openSidecar (a) : Exec g held i .openSidecar a g (held i)
  | tryLock {kind} : (∀ j, kind.Free (held j).lock) →
      Exec g held i (.tryLock kind) (.ok ()) g { held i with lock := some kind }
  | tryLockFails {kind} (e) : Exec g held i (.tryLock kind) (.error e) g (held i)
  | readFile {bytes} : g.contents = some bytes →
      Exec g held i .readFile (.ok bytes) g { held i with base := some bytes }
  | readFileFails (e) : Exec g held i .readFile (.error e) g (held i)
  | writeAtomic {saved body} (a) : saved = .ok body → Exec g held i (.writeAtomic saved) a
      (g.replace (held i).base body) { held i with base := some body, reserved := false }
  | writeAtomicFails {saved} (e) : Exec g held i (.writeAtomic saved) (.error e) g (held i)
  | removeFile : Exec g held i .removeFile (.ok ()) { g with contents := none }
      { held i with base := none, reserved := false }
  | removeFileFails (e) : Exec g held i .removeFile (.error e) g (held i)
  | unlock : Exec g held i .unlock () g {}

end

/-- Sessions with one vault file; the system drops the lock of one that dies. -/
def vaultSessions (ι : Type) : Kernel HandleOp HandleAnswer VaultFile Held ι := ⟨Held.Exec, {}⟩

def sessionsOf {ι : Type} (lib : Libraries) (path : String) (_ : ι) (p : HandleRun Unit) : Prop :=
  ∃ session : HandleSession, p = session.program lib path

/-! ## What is kept -/

/-- The bytes are what some save made of some database. -/
def Written (lib : Libraries) (body : Bytes) : Prop := ∃ (v : VaultHandle) (choices : SaveChoices),
  v.saved lib choices = .ok body

/-- The session that wrote replaced what it knew, by a whole file. -/
structure VaultWrite.Follows (lib : Libraries) (w : VaultWrite) : Prop where
  known : w.base ≠ none
  replaced : w.before = w.base
  whole : Written lib w.body

/-- The file is what it was before all sessions, or as a session made it, or there is none. A file without bytes is one
that is being created, or was. -/
def VaultFile.Whole (start : Option Bytes) (g : VaultFile) : Prop :=
  g.contents = start ∨ g.contents = none ∨ g.contents = some [] ∨ ∃ w ∈ g.writes, g.contents = some w.body

/-- What holds of the file and of all sessions. -/
structure SessionsInv (lib : Libraries) (start : Option Bytes) {ι : Type} (g : VaultFile) (held : ι → Held) : Prop where
  alone : ∀ i j, i ≠ j → (held i).lock = some .exclusive → (held j).lock = none
  reserved : ∀ i, (held i).reserved = true → g.contents = some [] ∧ (held i).base = some []
  one : ∀ i j, (held i).reserved = true → (held j).reserved = true → i = j
  base : ∀ i b, (held i).base = some b → b ≠ [] → (held i).lock ≠ none ∧ g.contents = some b
  writes : ∀ w ∈ g.writes, w.Follows lib
  whole : g.Whole start

/-- The session knows what is in the file, and nobody else may change that. -/
def Held.Owns (l : Held) : Prop := l.lock = some .exclusive ∧ ∃ b, b ≠ [] ∧ l.base = some b

/-- What a call may ask for: it reads under a lock, and replaces or removes what is its own. -/
def Held.MayAsk (lib : Libraries) (l : Held) : HandleOp → Prop
  | .readFile => l.lock ≠ none
  | .writeAtomic saved => (l.Owns ∨ (l.lock = some .exclusive ∧ l.reserved = true)) ∧
      ∀ body, saved = .ok body → Written lib body
  | .removeFile => l.Owns ∨ l.reserved = true
  | _ => True

variable {lib : Libraries} {start : Option Bytes} {ι : Type} {g g' : VaultFile} {held : ι → Held} {i : ι}

theorem Written.ne_nil {body : Bytes} (h : Written lib body) : body ≠ [] := by
  obtain ⟨v, choices, hsave⟩ := h
  exact Kdbx4.save_ne_nil hsave

/-- Another session knows nothing of the file while one owns it. -/
theorem SessionsInv.others (h : SessionsInv lib start g held)
    (howns : (held i).Owns ∨ (held i).reserved = true) {j : ι} (hj : j ≠ i) :
    (held j).reserved = false ∧ ∀ b, (held j).base = some b → b = [] := by
  rcases howns with ⟨hlock, b, hb, hbase⟩ | hreserved
  · have hcontents : g.contents = some b := (h.base i b hbase hb).2
    refine ⟨Bool.eq_false_iff.2 fun hr => hb ?_, fun b' hb' => ?_⟩
    · exact Option.some.inj (hcontents.symm.trans (h.reserved j hr).1)
    · by_contra hne
      exact (h.base j b' hb' hne).1 (h.alone i j (Ne.symm hj) hlock)
  · have hcontents : g.contents = some [] := (h.reserved i hreserved).1
    refine ⟨Bool.eq_false_iff.2 fun hr => hj (h.one j i hr hreserved), fun b' hb' => ?_⟩
    by_contra hne
    exact hne (Option.some.inj ((h.base j b' hb' hne).2.symm.trans hcontents))

/-- What one session does keeps the invariant, if it takes a lock only when it is free, and what it and the others know of
the file stays true. -/
theorem SessionsInv.set [DecidableEq ι] (h : SessionsInv lib start g held) {l : Held}
    (hlock : l.lock = (held i).lock ∨ l.lock = none ∨ ∃ kind, l.lock = some kind ∧ ∀ j, kind.Free (held j).lock)
    (hreserved : l.reserved = true → g'.contents = some [] ∧ l.base = some [])
    (hbase : ∀ b, l.base = some b → b ≠ [] → l.lock ≠ none ∧ g'.contents = some b)
    (hothers : ∀ j, j ≠ i → ((held j).reserved = true → g'.contents = some [] ∧ l.reserved = false) ∧
      ∀ b, (held j).base = some b → b ≠ [] → g'.contents = some b)
    (hwrites : ∀ w ∈ g'.writes, w.Follows lib) (hwhole : g'.Whole start) :
    SessionsInv lib start g' (Function.update held i l) := by
  have own : Function.update held i l i = l := Function.update_self i l held
  have other : ∀ {j}, j ≠ i → Function.update held i l j = held j := fun hj => Function.update_of_ne hj l held
  refine ⟨fun j k hjk hj => ?_, fun j hj => ?_, fun j k hj hk => ?_, fun j b hj hb => ?_, hwrites, hwhole⟩
  · by_cases hji : j = i
    · rw [hji, own] at hj
      have hki : k ≠ i := fun heq => hjk (hji.trans heq.symm)
      rw [other hki]
      rcases hlock with hsame | hnone | ⟨kind, hkind, hfree⟩
      · exact h.alone i k (Ne.symm hki) (hsame.symm.trans hj)
      · cases hnone.symm.trans hj
      · obtain rfl : kind = .exclusive := Option.some.inj (hkind.symm.trans hj)
        exact (hfree k).resolve_right fun hshared => nomatch hshared.1
    · rw [other hji] at hj
      by_cases hki : k = i
      · rw [hki, own]
        rcases hlock with hsame | hnone | ⟨kind, -, hfree⟩
        · exact hsame.trans (h.alone j i hji hj)
        · exact hnone
        · rcases hfree j with hfree | ⟨-, hshared⟩
          · cases hfree.symm.trans hj
          · cases hshared.symm.trans hj
      · rw [other hki]
        exact h.alone j k hjk hj
  · by_cases hji : j = i
    · rw [hji, own] at hj ⊢
      exact hreserved hj
    · rw [other hji] at hj ⊢
      exact ⟨((hothers j hji).1 hj).1, (h.reserved j hj).2⟩
  · by_cases hji : j = i
    · by_cases hki : k = i
      · exact hji.trans hki.symm
      · rw [hji, own] at hj
        rw [other hki] at hk
        cases hj.symm.trans ((hothers k hki).1 hk).2
    · rw [other hji] at hj
      by_cases hki : k = i
      · rw [hki, own] at hk
        cases hk.symm.trans ((hothers j hji).1 hj).2
      · rw [other hki] at hk
        exact h.one j k hj hk
  · by_cases hji : j = i
    · rw [hji, own] at hj ⊢
      exact hbase b hj hb
    · rw [other hji] at hj ⊢
      exact ⟨(h.base j b hj hb).1, (hothers j hji).2 b hj hb⟩

/-- A session that ends holds nothing. -/
theorem SessionsInv.drop [DecidableEq ι] (h : SessionsInv lib start g held) (i : ι) :
    SessionsInv lib start g (Function.update held i {}) :=
  h.set (.inr (.inl rfl)) (fun hr => nomatch hr) (fun _ hb => nomatch hb)
    (fun j _ => ⟨fun hr => ⟨(h.reserved j hr).1, rfl⟩, fun b hb hne => (h.base j b hb hne).2⟩) h.writes h.whole

/-- A request that changes nothing. -/
theorem SessionsInv.same [DecidableEq ι] (h : SessionsInv lib start g held) (i : ι) :
    SessionsInv lib start g (Function.update held i (held i)) := by
  rwa [Function.update_eq_self]

theorem sessionsInv_exec [DecidableEq ι] (h : SessionsInv lib start g held) {op : HandleOp} {a : HandleAnswer op} {l : Held}
    (hask : Held.MayAsk lib (held i) op) (hexec : Held.Exec g held i op a g' l) :
    SessionsInv lib start g' (Function.update held i l) := by
  cases hexec with
  | pathExists _ => exact h.same i
  | pathMissing => exact h.same i
  | createDirAll a => exact h.same i
  | createNewFails e => exact h.same i
  | readKeyfile a => exact h.same i
  | openSidecar a => exact h.same i
  | tryLockFails e => exact h.same i
  | readFileFails e => exact h.same i
  | writeAtomicFails e => exact h.same i
  | removeFileFails e => exact h.same i
  | createNew hnone =>
    -- nobody knows anything of a file that is not there
    refine h.set (.inl rfl) (fun _ => ⟨rfl, rfl⟩) (fun b hb hne => absurd (Option.some.inj hb).symm hne)
      (fun j _ => ⟨fun hr => ?_, fun b hb hne => ?_⟩) h.writes (.inr (.inr (.inl rfl)))
    · cases hnone.symm.trans (h.reserved j hr).1
    · cases hnone.symm.trans (h.base j b hb hne).2
  | @tryLock kind hfree =>
    refine h.set (.inr (.inr ⟨kind, rfl, hfree⟩)) (h.reserved i) (fun b hb hne => ⟨Option.some_ne_none kind, ?_⟩)
      (fun j hj => ⟨fun hr => ⟨(h.reserved j hr).1, ?_⟩, fun b hb hne => (h.base j b hb hne).2⟩) h.writes h.whole
    · exact (h.base i b hb hne).2
    · exact Bool.eq_false_iff.2 fun hi => hj (h.one j i hr hi)
  | readFile hcontents =>
    refine h.set (.inl rfl) (fun hr => ?_) (fun b hb _ => ⟨hask, hb ▸ hcontents⟩)
      (fun j hj => ⟨fun hr => ⟨(h.reserved j hr).1, ?_⟩, fun b hb hne => (h.base j b hb hne).2⟩) h.writes h.whole
    · exact ⟨(h.reserved i hr).1, hcontents.symm.trans (h.reserved i hr).1⟩
    · exact Bool.eq_false_iff.2 fun hi => hj (h.one j i hr hi)
  | @writeAtomic saved body a hsaved =>
    obtain ⟨howns, hwritten⟩ := hask
    have hbefore : g.contents = (held i).base ∧ (held i).base ≠ none := by
      rcases howns with ⟨-, b, hb, hbase⟩ | ⟨-, hreserved⟩
      · exact ⟨(h.base i b hbase hb).2.trans hbase.symm, hbase ▸ Option.some_ne_none b⟩
      · obtain ⟨hcontents, hbase⟩ := h.reserved i hreserved
        exact ⟨hcontents.trans hbase.symm, hbase ▸ Option.some_ne_none []⟩
    have hlocked : (held i).lock = some .exclusive := howns.elim (fun hown => hown.1) fun hres => hres.1
    refine h.set (.inl rfl) (fun hr => nomatch hr) (fun b hb _ => ⟨hlocked ▸ Option.some_ne_none _, hb⟩)
      (fun j hj => ?_) (fun w hw => ?_)
      (.inr (.inr (.inr ⟨_, List.mem_append_right _ List.mem_cons_self, rfl⟩)))
    · obtain ⟨hfree, hempty⟩ := h.others (howns.imp_right fun hres => hres.2) hj
      exact ⟨fun hr => absurd (hr.symm.trans hfree) Bool.noConfusion, fun b hb hne => absurd (hempty b hb) hne⟩
    · rcases List.mem_append.1 hw with hw | hw
      · exact h.writes w hw
      · rw [List.mem_singleton.1 hw]
        exact ⟨hbefore.2, hbefore.1, hwritten body hsaved⟩
  | removeFile =>
    refine h.set (.inl rfl) (fun hr => nomatch hr) (fun _ hb => nomatch hb) (fun j hj => ?_) h.writes
      (.inr (.inl rfl))
    obtain ⟨hfree, hempty⟩ := h.others hask hj
    exact ⟨fun hr => absurd (hr.symm.trans hfree) Bool.noConfusion, fun b hb hne => absurd (hempty b hb) hne⟩
  | unlock => exact h.drop i

/-! ## What a session asks for -/

/-- What a request of a session may be answered, and what the session holds then. -/
def Sees (l : Held) (op : HandleOp) (a : HandleAnswer op) (l' : Held) : Prop :=
  match op, a with
  | .createNew, .ok () => l' = { l with reserved := true, base := some [] }
  | .tryLock kind, .ok () => l' = { l with lock := some kind }
  | .readFile, .ok bytes => l' = { l with base := some bytes } ∧ ∀ b, b ≠ [] → l.base = some b → bytes = b
  | .writeAtomic _, .ok () => ∃ body, body ≠ [] ∧ l' = { l with base := some body, reserved := false }
  | .writeAtomic _, .error _ => l' = l ∨ ∃ body, body ≠ [] ∧ l' = { l with base := some body, reserved := false }
  | .removeFile, .ok () | .unlock, () => True
  | .pathExists, _ | .createDirAll, _ | .createNew, .error _ | .readKeyfile _, _ | .openSidecar, _ | .tryLock _, .error _
  | .readFile, .error _ | .removeFile, .error _ => l' = l

theorem sees {op : HandleOp} {a : HandleAnswer op} {l l' : Held} (hask : Held.MayAsk lib l op)
    (hseen : (vaultSessions ι).Seen (SessionsInv lib start) l op a l') : Sees l op a l' := by
  obtain ⟨g, held, i, g', h, rfl, hexec⟩ := hseen
  cases hexec with
  | pathExists _ => rfl
  | pathMissing => rfl
  | createDirAll a => rfl
  | createNew _ => rfl
  | createNewFails e => rfl
  | readKeyfile a => rfl
  | openSidecar a => rfl
  | tryLock _ => rfl
  | tryLockFails e => rfl
  | readFile hcontents =>
    refine ⟨rfl, fun b hb hbase => ?_⟩
    exact Option.some.inj (hcontents.symm.trans (h.base i b hbase hb).2)
  | readFileFails e => rfl
  | writeAtomic a hsaved =>
    cases a with
    | ok _ => exact ⟨_, (hask.2 _ hsaved).ne_nil, rfl⟩
    | error e => exact .inr ⟨_, (hask.2 _ hsaved).ne_nil, rfl⟩
  | writeAtomicFails e => exact .inl rfl
  | removeFile => trivial
  | removeFileFails e => rfl
  | unlock => trivial

section

variable {α β : Type}

/-- The program asks only for what it may, and ends with `Q` if it returns. -/
def Proceeds (lib : Libraries) (start : Option Bytes) (ι : Type) (Q : Held → α → Prop) (l : Held) (p : HandleRun α) : Prop :=
  p.Upholds (Held.MayAsk lib) ((vaultSessions ι).Seen (SessionsInv lib start)) Q (fun _ _ => True) l

variable {Q : Held → β → Prop} {l : Held} {path master : String} {keyfile : Option Keyfile}

theorem Proceeds.ask {op : HandleOp} {f : HandleAnswer op → HandleRun β} (hask : Held.MayAsk lib l op)
    (h : ∀ a l', Sees l op a l' → Proceeds lib start ι Q l' (f a)) :
    Proceeds lib start ι Q l (request HandleAnswer op >>= f) :=
  ⟨hask, fun a l' hseen => h a l' (sees hask hseen)⟩

theorem Proceeds.bind {R : Held → α → Prop} {p : HandleRun α} {f : α → HandleRun β} (h : Proceeds lib start ι R l p)
    (hf : ∀ l a, R l a → Proceeds lib start ι Q l (f a)) : Proceeds lib start ι Q l (p >>= f) :=
  Upholds.bind (Upholds.mono hf h)

theorem fromKeyfile_proceeds (keyfile : Option Keyfile) :
    Proceeds lib start ι (fun l' _ => l' = l) l (VaultHandle.fromKeyfile keyfile) := by
  cases keyfile with
  | none => rfl
  | some keyfile =>
    cases keyfile with
    | bytes bytes => rfl
    | path path =>
      refine .ask trivial fun a l' hl => ?_
      cases a with
      | error source => exact hl
      | ok bytes => exact hl

theorem acquire_proceeds (kind : LockKind) (path : String) :
    Proceeds lib start ι (fun l' r => (r = .ok () → l' = { l with lock := some kind }) ∧ (r ≠ .ok () → l' = l)) l
      (VaultHandle.acquire kind path) := by
  refine .ask trivial fun a l' hl => ?_
  obtain rfl : l' = l := hl
  cases a with
  | error source => exact ⟨fun h => (nomatch h), fun _ => rfl⟩
  | ok _ =>
    refine .ask trivial fun a l'' hlock => ?_
    cases a with
    | ok _ => exact ⟨fun _ => hlock, fun hne => absurd rfl hne⟩
    | error source =>
      cases source with
      | wouldBlock => exact ⟨fun h => (nomatch h), fun _ => hlock⟩
      | notFound => exact ⟨fun h => (nomatch h), fun _ => hlock⟩
      | alreadyExists => exact ⟨fun h => (nomatch h), fun _ => hlock⟩
      | other code => exact ⟨fun h => (nomatch h), fun _ => hlock⟩

theorem orUnlock_proceeds {R : Held → α → Prop} {r : Except HandleError α} (h : ∀ a, r = .ok a → R l a) :
    Proceeds lib start ι R l (VaultHandle.orUnlock r) := by
  cases r with
  | ok a => exact h a rfl
  | error e => exact .ask trivial fun _ _ _ => trivial

theorem ofExcept_proceeds {R : Held → α → Prop} {r : Except HandleError α} (h : ∀ a, r = .ok a → R l a) :
    Proceeds lib start ι R l (ofExcept r) := by
  cases r with
  | ok a => exact h a rfl
  | error e => exact trivial

/-- What was read stays known, and what was opened is not empty. -/
theorem openDatabase_proceeds (hlock : l.lock ≠ none) (key : DatabaseKey) :
    Proceeds lib start ι (fun l' r => l'.lock = l.lock ∧ (∀ b, b ≠ [] → l.base = some b → l'.base = some b) ∧
      ∀ d, r = .ok d → ∃ b, b ≠ [] ∧ l'.base = some b) l (VaultHandle.openDatabase lib path key) := by
  refine .ask hlock fun a l' hread => ?_
  cases a with
  | error source =>
    obtain rfl : l' = l := hread
    exact ⟨rfl, fun _ _ hb => hb, fun d h => nomatch h⟩
  | ok data =>
    obtain ⟨rfl, hsame⟩ := hread
    refine ⟨rfl, fun b hb hbase => congrArg some (hsame b hb hbase), fun d hd => ⟨data, ?_, rfl⟩⟩
    rintro rfl
    rw [Kdbx4.parse_nil] at hd
    cases hd

theorem save_proceeds {v : VaultHandle} {choices : SaveChoices}
    (h : l.Owns ∨ (l.lock = some .exclusive ∧ l.reserved = true)) :
    Proceeds lib start ι (fun l' r => l'.Owns ∨ (r ≠ .ok () ∧ l' = l)) l (v.save lib choices) := by
  have hlock : l.lock = some .exclusive := h.elim (fun hown => hown.1) fun hres => hres.1
  refine ⟨⟨h, fun body hbody => ⟨v, choices, hbody⟩⟩, fun a l' hseen => ?_⟩
  have hwrite : Sees l (.writeAtomic (v.saved lib choices)) a l' :=
    sees ⟨h, fun body hbody => ⟨v, choices, hbody⟩⟩ hseen
  cases a with
  | ok _ =>
    obtain ⟨body, hbody, rfl⟩ := hwrite
    exact .inl ⟨hlock, body, hbody, rfl⟩
  | error e =>
    rcases hwrite with rfl | ⟨body, hbody, rfl⟩
    · exact .inr ⟨fun h => (nomatch h), rfl⟩
    · exact .inl ⟨hlock, body, hbody, rfl⟩

/-- The key file is read, and what the session holds stays. -/
theorem material_proceeds (keyfile : Option Keyfile) :
    Proceeds lib start ι (fun l' _ => l' = l) l (VaultHandle.fromKeyfile keyfile >>= ofExcept) :=
  (fromKeyfile_proceeds keyfile).bind fun _ _ hsame => ofExcept_proceeds fun _ _ => hsame

/-- The file that a path is reserved with is written under the lock, or removed. -/
theorem createReserved_proceeds (kdf : KdfParams) (rootId : GroupId) (now : NaiveDateTime) (choices : SaveChoices)
    (hl : l.reserved = true) : Proceeds lib start ι (fun l' _ => l'.Owns) l
      (VaultHandle.createReserved lib path master keyfile kdf rootId now choices) := by
  refine (material_proceeds keyfile).bind fun l' material hsame => ?_
  obtain rfl : l' = l := hsame
  refine (acquire_proceeds .exclusive path).bind fun l'' r hacquire => ?_
  cases r with
  | error e =>
    obtain rfl : l'' = l' := hacquire.2 fun h => nomatch h
    exact .ask (.inr hl) fun _ _ _ => trivial
  | ok _ =>
    have hres : l''.lock = some .exclusive ∧ l''.reserved = true := by
      rw [hacquire.1 rfl]
      exact ⟨rfl, hl⟩
    refine (save_proceeds (.inr hres)).bind fun l r hsave => ?_
    cases r with
    | ok _ => exact hsave.resolve_right fun h => h.1 rfl
    | error e =>
      refine .ask ?_ fun _ _ _ => .ask trivial fun _ _ _ => trivial
      rcases hsave with hown | ⟨-, rfl⟩
      · exact .inl hown
      · exact .inr hres.2

/-- A vault that is created is owned. -/
theorem create_proceeds (kdf : KdfParams) (rootId : GroupId) (now : NaiveDateTime) (choices : SaveChoices) :
    Proceeds lib start ι (fun l' _ => l'.Owns) l (VaultHandle.create lib path master keyfile kdf rootId now choices) := by
  refine .ask trivial fun a _ _ => ?_
  cases a with
  | true => exact trivial
  | false =>
    refine .ask trivial fun a _ _ => ?_
    cases a with
    | error source => exact trivial
    | ok _ =>
      refine .ask trivial fun a l' hnew => ?_
      cases a with
      | error source => cases source <;> exact trivial
      | ok _ =>
        obtain rfl := hnew
        exact createReserved_proceeds kdf rootId now choices rfl

/-- A vault that is opened is locked, and something was read. -/
theorem openLocked_proceeds (kind : LockKind) :
    Proceeds lib start ι (fun l' _ => l'.lock = some kind ∧ ∃ b, b ≠ [] ∧ l'.base = some b) l
      (VaultHandle.openLocked lib kind path master keyfile) := by
  refine .ask trivial fun a l' hexists => ?_
  cases a with
  | false => exact trivial
  | true =>
    refine .bind (R := fun l'' _ => l''.lock = some kind) ?_ fun l₁ _ hlock => ?_
    · refine (acquire_proceeds kind path).bind fun l₁ r hacquire => ofExcept_proceeds fun _ hr => ?_
      obtain rfl := hacquire.1 hr
      rfl
    refine .bind (R := fun l₂ _ => l₂.lock = some kind) ?_ fun l₂ _ hlock => ?_
    · refine (fromKeyfile_proceeds keyfile).bind fun l₂ _ hsame => orUnlock_proceeds fun _ _ => ?_
      rwa [show l₂ = l₁ from hsame]
    refine .bind (R := fun l₃ _ => l₃.lock = some kind ∧ ∃ b, b ≠ [] ∧ l₃.base = some b) ?_ fun l₃ d hopened => hopened
    refine (openDatabase_proceeds (hlock ▸ Option.some_ne_none kind) _).bind fun l₃ r hread => ?_
    exact orUnlock_proceeds fun d hd => ⟨hread.1.trans hlock, hread.2.2 d hd⟩

/-- A command leaves an owner an owner. -/
theorem command_proceeds {v : VaultHandle} (command : Command) (h : l.Owns) :
    Proceeds lib start ι (fun l' _ => l'.Owns) l (command.run lib path v) := by
  cases command with
  | edit change => exact h
  | replaceDatabase newConfig newDb => exact h
  | save choices =>
    refine (save_proceeds (.inl h)).bind fun l' r hsave => ?_
    exact hsave.elim id fun hsame => by rw [hsame.2]; exact h
  | changeMasterPassword current new choices =>
    refine .bind (R := fun l' _ => l'.Owns) ?_ fun l' _ hown => hown
    refine (openDatabase_proceeds (h.1 ▸ Option.some_ne_none _) _).bind fun l' r hread => ?_
    obtain ⟨b, hb, hbase⟩ := h.2
    have hown : l'.Owns := ⟨hread.1.trans h.1, b, hb, hread.2.1 b hb hbase⟩
    cases r with
    | error e => exact hown
    | ok _ =>
      refine (save_proceeds (.inl hown)).bind fun l'' r hsave => ?_
      have hown' : l''.Owns := hsave.elim id fun hsame => by rw [hsame.2]; exact hown
      cases r with
      | error e => exact hown'
      | ok _ => exact hown'

theorem useHandle_proceeds (commands : List Command) (v : VaultHandle) (h : l.Owns) :
    Proceeds lib start ι (fun _ _ => True) l (useHandle lib path commands v) := by
  induction commands generalizing l v with
  | nil => exact ⟨trivial, fun _ _ _ => trivial⟩
  | cons command commands ih => exact (command_proceeds command h).bind fun l' v' hown => ih v' hown

/-- A session asks only for what it may. -/
theorem session_proceeds (session : HandleSession) : Proceeds lib start ι (fun _ _ => True) l (session.program lib path) := by
  cases session with
  | create master keyfile kdf rootId now choices commands =>
    exact (create_proceeds kdf rootId now choices).bind fun l v hown => useHandle_proceeds commands v hown
  | readWrite master keyfile commands =>
    exact (openLocked_proceeds .exclusive).bind fun l v hown => useHandle_proceeds commands v hown
  | readOnly master keyfile =>
    refine .bind (R := fun _ _ => True) ?_ fun l _ _ => ⟨trivial, fun _ _ _ => trivial⟩
    exact (openLocked_proceeds .shared).bind fun l v _ => trivial

end

/-! ## All runs -/

/-- However the requests of any number of sessions are mixed, and wherever any of them ends: who has the vault open for
writing is alone, who has it open knows what is in the file, every replacement replaced what its session had read or
written last by a whole new file, and the file is never anything else. -/
theorem sessions_replace_what_they_know [DecidableEq ι] {path : String}
    {s : Kernel.State HandleOp HandleAnswer HandleError Unit VaultFile Held ι}
    (run : Kernel.Reachable (vaultSessions ι) (sessionsOf lib path) (.start (vaultSessions ι) ⟨start, []⟩) s) :
    (∀ i j, i ≠ j → (s.held i).lock = some .exclusive → (s.held j).lock = none) ∧
      (∀ i b, (s.held i).base = some b → b ≠ [] → s.shared.contents = some b) ∧
      (∀ w ∈ s.shared.writes, w.Follows lib) ∧ s.shared.Whole start := by
  have pf : Kernel.Proof (vaultSessions ι) (sessionsOf lib path) (SessionsInv lib start) (Held.MayAsk lib) (fun _ _ => True)
      fun _ _ => True := by
    refine ⟨fun h hask hexec => sessionsInv_exec h hask hexec, fun i h => h.drop i, fun {i p} hp => ?_⟩
    obtain ⟨session, rfl⟩ := hp
    exact session_proceeds session
  have hstart : SessionsInv lib start (⟨start, []⟩ : VaultFile) fun _ : ι => (vaultSessions ι).nothing :=
    ⟨fun _ _ _ _ => rfl, fun _ h => (nomatch h), fun _ _ h => (nomatch h), fun _ _ h => (nomatch h),
      fun _ hw => absurd hw List.not_mem_nil, .inl rfl⟩
  have holds := pf.reachable hstart run
  exact ⟨holds.inv.alone, fun i b hb hne => (holds.inv.base i b hb hne).2, holds.inv.writes, holds.inv.whole⟩

def smallLibraries : Libraries :=
  ⟨⟨fun _ _ => .error (.error .kdb), fun _ _ => .error (.error .kdbx3)⟩, Kdbx4.smallCrypto, Kdbx4.smallQuickXml⟩

abbrev TwoSessions : Kernel.State HandleOp HandleAnswer HandleError Unit VaultFile Held Bool → Prop :=
  Kernel.Reachable (vaultSessions Bool) (sessionsOf smallLibraries "v") (.start (vaultSessions Bool) ⟨some [1], []⟩)

/-- While one session has the lock, another comes in vain. -/
theorem second_session_waits : ∃ s, TwoSessions s ∧ (s.held true).lock = some .exclusive ∧
    s.running false = some (.fail .contended) ∧ (s.held false).lock = none := by
  have run : TwoSessions (.start (vaultSessions Bool) ⟨some [1], []⟩) := .start
  have run := run.step (.begin true rfl ⟨.readWrite "pw" none [], rfl⟩)
  have run := run.step (.request true rfl (.pathExists (Option.some_ne_none [1])))
  have run := run.step (.request true rfl (.openSidecar (.ok ())))
  have run := run.step (.request true rfl (.tryLock fun j => .inl (by cases j <;> rfl)))
  have run := run.step (.begin false rfl ⟨.readOnly "pw" none, rfl⟩)
  have run := run.step (.request false rfl (.pathExists (Option.some_ne_none [1])))
  have run := run.step (.request false rfl (.openSidecar (.ok ())))
  have run := run.step (.request false rfl (.tryLockFails .wouldBlock))
  exact ⟨_, run, rfl, rfl, (sessions_replace_what_they_know run).1 true false Bool.noConfusion rfl⟩

end Falach
