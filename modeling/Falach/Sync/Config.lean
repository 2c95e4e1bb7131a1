import Falach.Core.Registry
import Falach.S3.Endpoint
import Falach.Sync.SyncNow
/-!
# The `[sync]` block of a vault

What is stored about a vault's remote, and how two remotes are told apart.
-/

namespace Falach

inductive CredentialSource where
  | rstCred1 (accessKeyId secretAccessKeyEncrypted : String)
  | awsProfile (profile : String) (credentialsFile : Option String)
  | envVars (prefixOf : String)
  | iamInstanceRole (imdsEndpoint : Option String)
deriving DecidableEq

inductive TransportKind where
  | s3
deriving DecidableEq

def s3Keys : List String :=
  ["bucket", "key", "endpoint", "region", "path_style", "credentials", "if_match_supported"]
def syncKeys : List String := ["kind", "s3", "last_synced_remote_etag", "last_synced_local_sha256"]

/-- `S3Config`; `W` is what an unknown key may hold. -/
structure S3Config (W : Type) where
  bucket : Text
  key : Text
  endpoint : Option Text := none
  region : Text
  pathStyle : Bool := false
  credentials : CredentialSource
  ifMatchSupported : IfMatchSupport := .unknown
  extra : Extra s3Keys W := .empty
deriving DecidableEq

/-- `SyncConfig` as it is stored. -/
structure SyncBlock (W : Type) where
  kind : TransportKind
  s3 : Option (S3Config W) := none
  lastSyncedRemoteEtag : Option String := none
  lastSyncedLocalSha256 : Option String := none
  extra : Extra syncKeys W := .empty
deriving DecidableEq

/-- The TOML value of a block, and the block of a TOML value. -/
structure SyncCodec (V W : Type) where
  encode : SyncBlock W → V
  decode : V → Option (SyncBlock W)

/-- What is stored is read back as it was. -/
def SyncCodec.RoundTrips {V W : Type} (codec : SyncCodec V W) : Prop :=
  ∀ cfg, codec.decode (codec.encode cfg) = some cfg

def syncKey : String := "sync"

theorem syncKey_unregistered : syncKey ∉ registeredVaultKeys := by decide

namespace SyncBlock

variable {V W : Type} (codec : SyncCodec V W)

/-- `SyncConfig::s3`. -/
def ofS3 (config : S3Config W) : SyncBlock W := { kind := .s3, s3 := some config }

/-- `SyncConfig::from_vault_entry`. -/
def fromVaultEntry (entry : RegisteredVault V) : Option (SyncBlock W) :=
  (entry.extra.table.lookup syncKey).bind codec.decode

/-- `SyncConfig::to_vault_entry`. -/
def toVaultEntry (cfg : SyncBlock W) (entry : RegisteredVault V) : RegisteredVault V :=
  { entry with extra := entry.extra.insert syncKey (codec.encode cfg) (by decide) }

end SyncBlock

/-- The endpoint setting of a configuration. -/
def S3Config.endpointConfig {W : Type} (s3 : S3Config W) : EndpointConfig :=
  ⟨s3.endpoint, s3.region, s3.bucket, s3.pathStyle⟩

/-- `canonicalize_target`. -/
def canonicalizeTarget (endpoint : Option Text) (bucket key : Text) : Text :=
  let endpointPart := (endpoint.map canonicalizeEndpoint).getD "<aws-default>".toList
  endpointPart ++ "|".toList ++ bucket ++ "|".toList ++ key

def S3Config.canonicalTarget {W : Type} (s3 : S3Config W) : Text := canonicalizeTarget s3.endpoint s3.bucket s3.key

/-- The configuration of a vault, if it has one for S3. -/
def RegisteredVault.s3Config {V W : Type} (codec : SyncCodec V W) (entry : RegisteredVault V) : Option (S3Config W) :=
  (SyncBlock.fromVaultEntry codec entry).bind (·.s3)

/-- `SyncConfig::find_duplicate_target`. -/
def findDuplicateTarget {V W : Type} (codec : SyncCodec V W) (registry : VaultRegistry V) (targetEndpoint : Option Text)
    (targetBucket targetKey : Text) (excludeVault : Option String) : Option String :=
  let targetCanonical := canonicalizeTarget targetEndpoint targetBucket targetKey
  (registry.vaults.filter fun entry => some entry.name ≠ excludeVault).findSome? fun entry => do
    let s3 ← entry.s3Config codec
    if s3.canonicalTarget = targetCanonical then some entry.name else none

end Falach
