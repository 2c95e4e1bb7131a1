import Falach.Core.Error
import Falach.Lib.Loops
import Falach.Lib.Programs
/-!
# The vault registry

`vaults.toml`, loaded and saved. What a call asks of the file system is a request each, so other processes may act
between any two of them.
-/

namespace Falach

open Keepass Program

/-- The keys of a TOML table that `#[serde(flatten)]` leaves over: none of the `declared` ones. -/
structure Extra (declared : List String) (V : Type) where
  table : HashMap String V
  unknown : ∀ k ∈ declared, k ∉ table

namespace Extra

variable {declared : List String} {V : Type}

def empty : Extra declared V := ⟨∅, fun _ _ => Finmap.notMem_empty⟩

def insert (e : Extra declared V) (k : String) (v : V) (h : k ∉ declared) : Extra declared V where
  table := e.table.insert k v
  unknown k' hk' hmem := by
    rcases Finmap.mem_insert.1 hmem with rfl | hmem
    · exact h hk'
    · exact e.unknown k' hk' hmem

def erase (e : Extra declared V) (k : String) : Extra declared V where
  table := e.table.erase k
  unknown k' hk' hmem := e.unknown k' hk' (Finmap.mem_erase.1 hmem).2

@[ext] theorem ext {e e' : Extra declared V} (h : e.table = e'.table) : e = e' := by
  cases e; cases e'; cases h; rfl

instance [DecidableEq V] : DecidableEq (Extra declared V) := fun e e' =>
  decidable_of_iff (e.table = e'.table) ⟨ext, fun h => h ▸ rfl⟩

end Extra

def registeredVaultKeys : List String := ["name", "path", "created_at", "keyfile_path"]
def onDiskKeys : List String := ["version", "vault"]

structure RegisteredVault (V : Type) where
  name : String
  path : String
  createdAt : String
  keyfilePath : Option String := none
  extra : Extra registeredVaultKeys V := .empty
deriving DecidableEq

/-- What is written to the file, and read from it. -/
structure OnDisk (V : Type) where
  version : Nat
  vaults : List (RegisteredVault V) := []
  extra : Extra onDiskKeys V := .empty
deriving DecidableEq

/-- `toml::from_str` and `toml::to_string` for the registry file. -/
structure Toml (V : Type) where
  fromStr : String → Option (OnDisk V)
  toStr : OnDisk V → Except String String

/-- What is written is read back as it was. -/
def Toml.RoundTrips {V : Type} (toml : Toml V) : Prop := ∀ d body, toml.toStr d = .ok body → toml.fromStr body = some d

def schemaVersion : Nat := 1

/-- `VaultRegistry`; `baseline` is the text it was read from or written as. -/
structure VaultRegistry (V : Type) where
  version : Nat
  vaults : List (RegisteredVault V)
  extraTopLevel : Extra onDiskKeys V
  baseline : Option String
deriving DecidableEq

/-- What the registry calls ask of the file system. -/
inductive RegistryOp where
  | ensureExists
  | acquireExclusive
  | readToString
  | writeAtomic (body : String)
  | unlock

@[reducible] def RegistryAnswer : RegistryOp → Type
  | .ensureExists => Except VaultError Unit
  | .acquireExclusive => Except VaultError Unit
  | .readToString => Except VaultError (Option String)
  | .writeAtomic _ => Except VaultError Unit
  | .unlock => Unit

abbrev RegistryRun (α : Type) := Program RegistryOp RegistryAnswer VaultError α

namespace VaultRegistry

variable {V : Type}

/-! ## In memory -/

/-- `VaultRegistry::with_paths`. -/
def withPaths : VaultRegistry V := ⟨schemaVersion, [], .empty, none⟩

def get (r : VaultRegistry V) (name : String) : Option (RegisteredVault V) := r.vaults.find? fun v => v.name = name

def register (r : VaultRegistry V) (vault : RegisteredVault V) : Except VaultError (VaultRegistry V) :=
  if r.vaults.any fun v => v.name = vault.name then .error (.alreadyRegistered vault.name)
  else .ok { r with vaults := r.vaults ++ [vault] }

/-- `VaultRegistry::deregister`. With `delete_file`, `removeFile` is how the removal of the vault file goes; a file that
is not there counts as removed. -/
def deregister (r : VaultRegistry V) (name : String) (removeFile : Option (String → Except VaultError Unit)) :
    Except VaultError (RegisteredVault V × VaultRegistry V) :=
  match r.vaults.findIdx? fun v => v.name = name, r.get name with
  | some index, some vault => do
    match removeFile with
    | some removeFile => removeFile vault.path
    | none => pure ()
    return (vault, { r with vaults := r.vaults.eraseIdx index })
  | _, _ => .error (.notRegistered name)

theorem deregister_ok {r r' : VaultRegistry V} {name : String} {removeFile : Option (String → Except VaultError Unit)}
    {vault : RegisteredVault V} :
    r.deregister name removeFile = .ok (vault, r') ↔ ∃ index, r.vaults.findIdx? (fun v => v.name = name) = some index ∧
      r.get name = some vault ∧ (∀ f, removeFile = some f → f vault.path = .ok ()) ∧
      { r with vaults := r.vaults.eraseIdx index } = r' := by
  unfold deregister
  constructor
  · intro h
    split at h
    · rename_i index v hindex hget
      cases removeFile with
      | none =>
        cases h
        exact ⟨index, hindex, hget, nofun, rfl⟩
      | some f =>
        obtain ⟨_, hremove, h⟩ := Loop.bind_ok.1 h
        cases h
        exact ⟨index, hindex, hget, fun f' hf => by cases hf; exact hremove, rfl⟩
    · cases h
  · rintro ⟨index, hindex, hget, hremove, rfl⟩
    rw [hindex, hget]
    cases removeFile with
    | none => rfl
    | some f => exact Loop.bind_ok.2 ⟨(), hremove f rfl, rfl⟩

/-- The change of one vault's unknown keys in `update_registered_extra`. -/
def updateExtra (r : VaultRegistry V) (name : String)
    (update : Extra registeredVaultKeys V → Extra registeredVaultKeys V) : Except VaultError (VaultRegistry V) :=
  match r.vaults.findIdx? fun v => v.name = name with
  | none => .error (.notRegistered name)
  | some index => .ok { r with vaults := r.vaults.modify index fun v => { v with extra := update v.extra } }

/-! ## The file -/

variable (toml : Toml V)

def onDisk (r : VaultRegistry V) : OnDisk V := ⟨schemaVersion, r.vaults, r.extraTopLevel⟩

/-- What `load` makes of the contents of the file, if there is one. -/
def fromContents : Option String → Except VaultError (VaultRegistry V)
  | none => .ok withPaths
  | some contents =>
    match toml.fromStr contents with
    | none => .error .registryMalformed
    | some d =>
      if d.version ≠ schemaVersion then .error .registryMalformed
      else .ok ⟨d.version, d.vaults, d.extra, some contents⟩

/-- `VaultRegistry::load`. -/
def load : RegistryRun (VaultRegistry V) := do
  let contents ← request RegistryAnswer .readToString >>= ofExcept
  ofExcept (fromContents toml contents)

/-- A part of a call that runs until the lock guard is dropped, whatever comes of it. -/
def underLock {α : Type} (body : RegistryRun (Except VaultError α)) : RegistryRun α := do
  request RegistryAnswer .ensureExists >>= ofExcept
  request RegistryAnswer .acquireExclusive >>= ofExcept
  let result ← body
  request RegistryAnswer .unlock
  ofExcept result

/-- `VaultRegistry::save_unlocked`. -/
def saveUnlocked (r : VaultRegistry V) : RegistryRun (Except VaultError (VaultRegistry V)) := do
  match toml.toStr r.onDisk with
  | .error reason => return .error (.registrySerializationFailed reason)
  | .ok body =>
    let written ← request RegistryAnswer (.writeAtomic body)
    return written.map fun _ => { r with baseline := some body }

/-- `VaultRegistry::save`; a registry that fails to be saved stays as it is. -/
def save (r : VaultRegistry V) : RegistryRun (VaultRegistry V) :=
  underLock do
    match ← request RegistryAnswer .readToString with
    | .error e => return .error e
    | .ok current => if current ≠ r.baseline then return .error .registryChanged else saveUnlocked toml r

/-- `VaultRegistry::update_registered_extra`; it returns what the registry is replaced by. -/
def updateRegisteredExtra (name : String) (update : Extra registeredVaultKeys V → Extra registeredVaultKeys V) :
    RegistryRun (VaultRegistry V) :=
  underLock do
    match ← request RegistryAnswer .readToString with
    | .error e => return .error e
    | .ok current =>
      match (do (← fromContents toml current).updateExtra name update) with
      | .error e => return .error e
      | .ok latest => saveUnlocked toml latest

end VaultRegistry

end Falach
