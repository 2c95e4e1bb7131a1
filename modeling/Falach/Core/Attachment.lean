import Falach.Core.Crud
/-!
# Attachments of an unlocked vault

`add_attachment` and `remove_attachment`, with the size cap in the custom data of the vault.
-/

namespace Falach

open Keepass Database

def maxAttachmentBytesKey : String := "falach.max_attachment_bytes"

/-- 5 MiB. -/
def defaultMaxAttachmentBytes : Nat := 5 * 1024 * 1024

/-- 100 MiB. -/
def maxAttachmentBytesUpperBound : Nat := 100 * 1024 * 1024

/-- `str::parse::<u64>`: decimal digits, after a `+` if there is one. -/
def parseU64 (s : String) : Option Nat :=
  let digits := match s.toList with
    | '+' :: rest => rest
    | all => all
  if digits = [] ∨ digits.all Char.isDigit = false then none
  else
    let n := digits.foldl (fun n c => 10 * n + (c.toNat - '0'.toNat)) 0
    if n < 2 ^ 64 then some n else none

/-- `read_max_attachment_bytes`: a value that is missing or no number gives the default. -/
def readMaxAttachmentBytes (db : Database) : Nat :=
  ((db.meta.customData.lookup maxAttachmentBytesKey).bind (·.value)).bind (fun
    | .string s => parseU64 s
    | .binary _ => none) |>.getD defaultMaxAttachmentBytes

/-- `Vault::set_max_attachment_bytes`. -/
def setMaxAttachmentBytes (db : Database) (n : Nat) : Except VaultError Database :=
  if n = 0 ∨ n > maxAttachmentBytesUpperBound then .error .invalidAttachmentCap
  else .ok { db with «meta» := { db.meta with
    customData := db.meta.customData.insert maxAttachmentBytesKey
      { value := some (.string (toString n)), lastModificationTime := none } } }

/-- `last_modification` set. -/
def modifiedAt (now : NaiveDateTime) (e : Entry) : Entry :=
  { e with times := { e.times with lastModification := some now } }

namespace Vault

/-- `Vault::add_attachment`. -/
def addAttachment (db : Database) (uuid : Uuid) (name : String) (bytes : Bytes) (now : NaiveDateTime) :
    Except Fault (Except VaultError Database) :=
  let limit := readMaxAttachmentBytes db
  if bytes.length > limit then return .error (.attachmentTooLarge bytes.length limit)
  else match findEntryId db uuid with
    | .error e => return .error e
    | .ok id => do
      let db ← db.addAttachment id name (.unprotected bytes)
      return .ok (db.modifyEntry id (modifiedAt now))

/-- `Vault::remove_attachment`. -/
def removeAttachment (db : Database) (uuid : Uuid) (name : String) (now : NaiveDateTime) :
    Except Fault (Except VaultError Database) :=
  match findEntryId db uuid with
  | .error e => return .error e
  | .ok id => do
    let e ← expect (db.entry id)
    match e.attachments.lookup name with
    | none => return .error (.attachmentNotFound name)
    | some _ =>
      let db ← db.removeAttachmentByName id name
      return .ok (db.modifyEntry id (modifiedAt now))

end Vault

end Falach
