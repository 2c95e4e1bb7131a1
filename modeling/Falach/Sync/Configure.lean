import Falach.Sync.Config
/-!
# Writing the `[sync]` block

`configure_remote` and the bookkeeping of a sync, over the whole registry.
-/

namespace Falach

variable {V W : Type} (toml : Toml V) (codec : SyncCodec V W)

/-- `update_registry_sync_block`, with what it leaves in memory. -/
def updateRegistrySyncBlock (registry : VaultRegistry V) (vaultName : String) (cfg : SyncBlock W) :
    Except SyncError Unit × VaultRegistry V :=
  match registry.get vaultName with
  | none => (.error (.vault (.notRegistered vaultName)), registry)
  | some original =>
    let updated := cfg.toVaultEntry codec original
    match registry.deregister vaultName none with
    | .error e => (.error (.vault e), registry)
    | .ok (_, registry) =>
      match registry.register updated with
      | .error e => (.error (.vault e), registry)
      | .ok registry => (.ok (), registry)

/-- `registry.save()?` when the file system gives these answers. -/
def saveRegistry (answers : (op : RegistryOp) → RegistryAnswer op) (registry : VaultRegistry V) :
    Except SyncError Unit × VaultRegistry V :=
  match (registry.save toml).answered answers with
  | .error e => (.error (.vault e), registry)
  | .ok registry => (.ok (), registry)

/-- `Sync::configure_remote`, with what it leaves in memory. -/
def configureRemote (answers : (op : RegistryOp) → RegistryAnswer op) (registry : VaultRegistry V) (vaultName : String)
    (s3 : S3Config W) : Except SyncError Unit × VaultRegistry V :=
  match registry.get vaultName with
  | none => (.error (.vault (.notRegistered vaultName)), registry)
  | some _ =>
    match EndpointBuilder.fromConfig s3.endpointConfig with
    | .error e => (.error (.s3 (.unexpected 0 ("malformed endpoint: " ++ e.display))), registry)
    | .ok _ =>
      match findDuplicateTarget codec registry s3.endpoint s3.bucket s3.key (some vaultName) with
      | some existing => (.error (.duplicateTarget s3.endpoint s3.bucket s3.key existing), registry)
      | none =>
        match updateRegistrySyncBlock codec registry vaultName (.ofS3 s3) with
        | (.error e, registry) => (.error e, registry)
        | (.ok (), registry) => saveRegistry toml answers registry

/-- `registry.save()?`, with what it asks of the file system. -/
def saveRegistryRun (registry : VaultRegistry V) :
    Program RegistryOp RegistryAnswer Empty (Except SyncError Unit × VaultRegistry V) := do
  match ← (registry.save toml).lift id (fun _ a => a) with
  | .error e => return (.error (.vault e), registry)
  | .ok registry => return (.ok (), registry)

/-- `Sync::configure_remote`, with what it asks of the file system. -/
def configureRemoteRun (registry : VaultRegistry V) (vaultName : String) (s3 : S3Config W) :
    Program RegistryOp RegistryAnswer Empty (Except SyncError Unit × VaultRegistry V) :=
  match registry.get vaultName with
  | none => return (.error (.vault (.notRegistered vaultName)), registry)
  | some _ =>
    match EndpointBuilder.fromConfig s3.endpointConfig with
    | .error e => return (.error (.s3 (.unexpected 0 ("malformed endpoint: " ++ e.display))), registry)
    | .ok _ =>
      match findDuplicateTarget codec registry s3.endpoint s3.bucket s3.key (some vaultName) with
      | some existing => return (.error (.duplicateTarget s3.endpoint s3.bucket s3.key existing), registry)
      | none =>
        match updateRegistrySyncBlock codec registry vaultName (.ofS3 s3) with
        | (.error e, registry) => return (.error e, registry)
        | (.ok (), registry) => saveRegistryRun toml registry

theorem saveRegistryRun_answered (answers : (op : RegistryOp) → RegistryAnswer op) (registry : VaultRegistry V) :
    (saveRegistryRun toml registry).answered answers = .ok (saveRegistry toml answers registry) := by
  unfold saveRegistryRun saveRegistry
  rw [Program.answered_bind, Program.answered_lift]
  change (Except.ok ((registry.save toml).answered answers) >>= _) = _
  cases (registry.save toml).answered answers with
  | error e => rfl
  | ok registry => rfl

/-- It comes to the same as `configureRemote`. -/
theorem configureRemoteRun_answered (answers : (op : RegistryOp) → RegistryAnswer op) (registry : VaultRegistry V)
    (vaultName : String) (s3 : S3Config W) :
    (configureRemoteRun toml codec registry vaultName s3).answered answers =
      .ok (configureRemote toml codec answers registry vaultName s3) := by
  unfold configureRemoteRun configureRemote
  split
  · rfl
  · split
    · rfl
    · split
      · rfl
      · split
        · rfl
        · exact saveRegistryRun_answered toml answers _

/-- `sync_now_with_transport` after `run_state_machine` has returned `result`, with what it leaves in memory. -/
def syncNowBookkeeping (answers : (op : RegistryOp) → RegistryAnswer op) (registry : VaultRegistry V)
    (vaultName : String)
    (cfg : SyncBlock W) (updateCfgAfterRun : SyncBlock W → SyncBlock W)
    (result : Except SyncError (SyncOutcome × SyncPointers)) : Except SyncError SyncOutcome × VaultRegistry V :=
  let cfg := updateCfgAfterRun cfg
  match result with
  | .ok (outcome, pointers) =>
    let cfg := { cfg with lastSyncedRemoteEtag := pointers.remoteEtag, lastSyncedLocalSha256 := pointers.localSha256 }
    match updateRegistrySyncBlock codec registry vaultName cfg with
    | (.error e, registry) => (.error e, registry)
    | (.ok (), registry) => ((saveRegistry toml answers registry).1.map fun _ => outcome,
        (saveRegistry toml answers registry).2)
  | .error err =>
    match updateRegistrySyncBlock codec registry vaultName cfg with
    | (.error _, registry) => (.error err, registry)
    | (.ok (), registry) => (.error err, (saveRegistry toml answers registry).2)

end Falach
