import Falach.Format.SaveOpen
/-!
# Vault handles

`Vault` and `VaultReadOnly`: a vault file is created or opened under the lock of its sidecar, and the lock is held until
the handle is dropped. What a call asks of the file system is a request each.
-/

namespace Falach

open Keepass Program
open Keepass.Kdbx4 (OlderFormats QuickXml Crypto Walks SaveRun DatabaseOpenError DatabaseSaveError)

/-! ## Requests -/

/-- `VaultError`, as far as handles return it. A panic is one more way for a call to end: what it holds is dropped. -/
inductive HandleError where
  | fileNotFound (path : String)
  | pathExists (path : String)
  | contended
  | io (source : IoError) (path : String)
  | authenticationFailed
  | invalidFormat (source : DatabaseOpenError)
  | writeFailed (source : DatabaseSaveError)
  | databaseIdentityMismatch (expected found : Uuid)
  | panicked
deriving DecidableEq

inductive LockKind where
  | exclusive
  | shared
deriving DecidableEq

/-- What a handle asks of the file system. A file is replaced by what a save writes, if it writes it to its end. -/
inductive HandleOp where
  | pathExists
  | createDirAll
  | createNew
  | readKeyfile (path : String)
  | openSidecar
  | tryLock (kind : LockKind)
  | readFile
  | writeAtomic (saved : SaveRun Bytes)
  | removeFile
  | unlock

@[reducible] def HandleAnswer : HandleOp → Type
  | .pathExists => Bool
  | .readKeyfile _ => Except IoError Bytes
  | .readFile => Except IoError Bytes
  | .writeAtomic _ => Except HandleError Unit
  | .unlock => Unit
  | _ => Except IoError Unit

abbrev HandleRun (α : Type) := Program HandleOp HandleAnswer HandleError α

/-! ## What handles are made with -/

/-- The code that a vault file goes through. -/
structure Libraries where
  older : OlderFormats
  crypto : Crypto
  xml : QuickXml

/-- What a save draws, and the orders in which it walks maps and sets. -/
structure SaveChoices where
  draws : (config : Kdbx4.DatabaseConfig) → Kdbx4.Draws config
  walks : Walks
  orders : Orders

structure KdfParams where
  memoryKib : UInt64 := 65536
  iterations : UInt64 := 3
  parallelism : UInt32 := 2

def KdfParams.databaseConfig (kdf : KdfParams) : Kdbx4.DatabaseConfig where
  version := .kdb4 0
  outerCipherConfig := .aes256
  compressionConfig := .gzip
  innerCipherConfig := .chaCha20
  kdfConfig := .argon2id kdf.iterations (kdf.memoryKib * 1024) kdf.parallelism .version13
  publicCustomData := none

/-- `Vault`: a handle for reading and writing. -/
structure VaultHandle where
  config : Kdbx4.DatabaseConfig
  database : Database
  key : DatabaseKey
  keyfileMaterial : KeyfileMaterial

/-! ## The code -/

namespace VaultHandle

/-- `KeyfileMaterial::from_keyfile`. -/
def fromKeyfile : Option Keyfile → HandleRun (Except HandleError KeyfileMaterial)
  | none => return .ok none
  | some (.bytes bytes) => return .ok (some bytes)
  | some (.path path) => do
    match ← request HandleAnswer (.readKeyfile path) with
    | .error source => return .error (.io source path)
    | .ok bytes => return .ok (some bytes)

/-- `acquire_exclusive` and `acquire_shared`. -/
def acquire (kind : LockKind) (path : String) : HandleRun (Except HandleError Unit) := do
  match ← request HandleAnswer .openSidecar with
  | .error source => return .error (.io source (sidecarLockPath path))
  | .ok () =>
    match ← request HandleAnswer (.tryLock kind) with
    | .ok () => return .ok ()
    | .error .wouldBlock => return .error .contended
    | .error source => return .error (.io source path)

/-- An error while the lock is held: it is dropped. -/
def orUnlock {α : Type} : Except HandleError α → HandleRun α
  | .ok a => return a
  | .error e => do
    request HandleAnswer .unlock
    fail e

/-- `map_open_error`; what kind of I/O error decompression ends with is not looked at. -/
def mapOpenError (path : String) : Unread DatabaseOpenError → HandleError
  | .error .io => .io (.other 0) path
  | .error (.key _) => .authenticationFailed
  | .error (.cryptography _) => .authenticationFailed
  | .error source => .invalidFormat source
  | .panic => .panicked

def openDatabase (lib : Libraries) (path : String) (key : DatabaseKey) :
    HandleRun (Except HandleError (Kdbx4.DatabaseConfig × Database)) := do
  match ← request HandleAnswer .readFile with
  | .error source => return .error (.io source path)
  | .ok data => return (Kdbx4.parse lib.older lib.crypto lib.xml data key).mapError (mapOpenError path)

/-- What `Database::save` makes of the database of a handle. -/
def saved (lib : Libraries) (v : VaultHandle) (choices : SaveChoices) : SaveRun Bytes :=
  Kdbx4.save lib.crypto lib.xml v.config v.database v.key choices.walks choices.orders (choices.draws v.config)

/-- `save`, which is `save_database`. -/
def save (lib : Libraries) (v : VaultHandle) (choices : SaveChoices) : HandleRun (Except HandleError Unit) :=
  request HandleAnswer (.writeAtomic (v.saved lib choices))

/-- `create`, from where the path is reserved; the new root has a random id. -/
def createReserved (lib : Libraries) (path master : String) (keyfile : Option Keyfile) (kdf : KdfParams)
    (rootId : GroupId) (now : NaiveDateTime) (choices : SaveChoices) : HandleRun VaultHandle := do
  let keyfileMaterial ← fromKeyfile keyfile >>= ofExcept
  let v : VaultHandle := {
    config := kdf.databaseConfig
    database := .withData ⟨kdf.databaseConfig.kdfConfig.erase⟩ rootId now
    key := buildDatabaseKeyFromMaterial master keyfileMaterial
    keyfileMaterial := keyfileMaterial }
  match ← acquire .exclusive path with
  | .error e => do
    let _ ← request HandleAnswer .removeFile
    fail e
  | .ok () =>
    match ← v.save lib choices with
    | .error e => do
      let _ ← request HandleAnswer .removeFile
      request HandleAnswer .unlock
      fail e
    | .ok () => return v

def create (lib : Libraries) (path master : String) (keyfile : Option Keyfile) (kdf : KdfParams) (rootId : GroupId)
    (now : NaiveDateTime) (choices : SaveChoices) : HandleRun VaultHandle := do
  if ← request HandleAnswer .pathExists then fail (.pathExists path)
  else
    match ← request HandleAnswer .createDirAll with
    | .error source => fail (.io source parentPath)
    | .ok () =>
      match ← request HandleAnswer .createNew with
      | .error .alreadyExists => fail (.pathExists path)
      | .error source => fail (.io source path)
      | .ok () => createReserved lib path master keyfile kdf rootId now choices

/-- What `Vault::open` and `VaultReadOnly::open` have in common. -/
def openLocked (lib : Libraries) (kind : LockKind) (path master : String) (keyfile : Option Keyfile) :
    HandleRun VaultHandle := do
  if ← request HandleAnswer .pathExists then
    acquire kind path >>= ofExcept
    let keyfileMaterial ← fromKeyfile keyfile >>= orUnlock
    let key := buildDatabaseKeyFromMaterial master keyfileMaterial
    let (config, database) ← openDatabase lib path key >>= orUnlock
    return { config := config, database := database, key := key, keyfileMaterial := keyfileMaterial }
  else fail (.fileNotFound path)

/-- `Vault::open`. -/
def «open» (lib : Libraries) (path master : String) (keyfile : Option Keyfile) : HandleRun VaultHandle :=
  openLocked lib .exclusive path master keyfile

/-- `change_master_password`: the current password is checked with the file. -/
def changeMasterPassword (lib : Libraries) (path : String) (v : VaultHandle) (current new : String)
    (choices : SaveChoices) : HandleRun (Except HandleError Unit × VaultHandle) := do
  match ← openDatabase lib path (buildDatabaseKeyFromMaterial current v.keyfileMaterial) with
  | .error e => return (.error e, v)
  | .ok _ =>
    let renewed := { v with key := buildDatabaseKeyFromMaterial new v.keyfileMaterial }
    match ← renewed.save lib choices with
    | .error e => return (.error e, v)
    | .ok () => return (.ok (), renewed)

/-- `replace_database`; a database comes with its configuration. -/
def replaceDatabase (v : VaultHandle) (newConfig : Kdbx4.DatabaseConfig) (newDb : Database) :
    Except HandleError VaultHandle :=
  if v.database.root ≠ newDb.root then .error (.databaseIdentityMismatch v.database.root newDb.root)
  else .ok { v with config := newConfig, database := newDb }

end VaultHandle

/-- `VaultReadOnly`. -/
structure VaultReadOnly where
  database : Database

/-- `VaultReadOnly::open`. -/
def VaultReadOnly.«open» (lib : Libraries) (path master : String) (keyfile : Option Keyfile) :
    HandleRun VaultReadOnly := do
  let v ← VaultHandle.openLocked lib .shared path master keyfile
  return ⟨v.database⟩

end Falach
