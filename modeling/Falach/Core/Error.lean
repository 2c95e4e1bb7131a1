import Falach.Keepass.Database
/-!
# Vault errors
-/

namespace Falach

open Keepass

/-- `VaultError`, as far as entry, group and registry operations and sync runs can return it. -/
inductive VaultError where
  | authenticationFailed
  | databaseIdentityMismatch (expected found : Uuid)
  | writeFailed (reason : String)
  | io (path : String) (reason : String)
  | entryNotFound (uuid : Uuid)
  | groupNotFound (uuid : Uuid)
  | invalidGroupTarget (reason : String)
  | cannotModifyRoot
  | groupNotEmpty (uuid : Uuid)
  | attachmentTooLarge (actual limit : Nat)
  | attachmentNotFound (name : String)
  | invalidAttachmentCap
  | invalidTag (value : String)
  | notRegistered (name : String)
  | alreadyRegistered (name : String)
  | contended
  | registryMalformed
  | registryChanged
  | registrySerializationFailed (reason : String)
  | other (reason : String)
deriving DecidableEq

end Falach
