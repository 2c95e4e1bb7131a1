import Falach.Core.RegistryRuns
import Falach.Sync.Configure
/-!
# What the bookkeeping leaves alone

The update of a `[sync]` block takes the vault out of the registry and puts it back at the end. All else stays, as long
as the name comes up once; a save that fails does not take the update back.
-/

namespace Falach

open Program VaultRegistry

variable {V W : Type} {toml : Toml V} {codec : SyncCodec V W} {answers : (op : RegistryOp) → RegistryAnswer op}
  {registry registry' : VaultRegistry V} {vaultName : String} {cfg : SyncBlock W} {s3 : S3Config W}
  {vault : RegisteredVault V} {before after : List (RegisteredVault V)}

/-! ## Taking a vault out and putting it back -/

theorem get_eq_some_split (h : registry.get vaultName = some vault) :
    vault.name = vaultName ∧ ∃ before after, registry.vaults = before ++ vault :: after ∧
      vaultName ∉ before.map (·.name) := by
  obtain ⟨hname, before, after, hvaults, hbefore⟩ := List.find?_eq_some_iff_append.1 h
  refine ⟨by simpa using hname, before, after, hvaults, fun hmem => ?_⟩
  obtain ⟨v, hv, hv'⟩ := List.mem_map.1 hmem
  simpa [hv'] using hbefore v hv

theorem get_eq_none : registry.get vaultName = none ↔ vaultName ∉ registry.names := by
  simp [VaultRegistry.get, VaultRegistry.names, List.find?_eq_none]

section Split

variable (hvaults : registry.vaults = before ++ vault :: after) (hname : vault.name = vaultName)
  (hbefore : vaultName ∉ before.map (·.name))

include hvaults hname hbefore

theorem get_split : registry.get vaultName = some vault := by
  refine List.find?_eq_some_iff_append.2 ⟨by simpa using hname, before, after, hvaults, fun v hv => ?_⟩
  have hne : v.name ≠ vaultName := fun h => hbefore (h ▸ List.mem_map_of_mem hv)
  simpa using hne

theorem deregister_split :
    registry.deregister vaultName none = .ok (vault, { registry with vaults := before ++ after }) := by
  have hget := get_split hvaults hname hbefore
  have hindex : registry.vaults.findIdx? (fun v => v.name = vaultName) = some before.length := by
    rw [hvaults, List.findIdx?_append, List.findIdx?_eq_none_iff.2 fun v hv => ?_]
    · simp [List.findIdx?_cons, hname]
    · have hne : v.name ≠ vaultName := fun h => hbefore (h ▸ List.mem_map_of_mem hv)
      simpa using hne
  refine deregister_ok.2 ⟨before.length, hindex, hget, nofun, ?_⟩
  rw [hvaults, List.eraseIdx_append_of_length_le le_rfl, Nat.sub_self, List.eraseIdx_cons_zero]

/-- Where the name comes up again, the vault is taken out and not put back. -/
theorem updateRegistrySyncBlock_split (codec : SyncCodec V W) (cfg : SyncBlock W) :
    updateRegistrySyncBlock codec registry vaultName cfg =
      if vaultName ∈ after.map (·.name) then
        (.error (.vault (.alreadyRegistered vaultName)), { registry with vaults := before ++ after })
      else (.ok (), { registry with vaults := before ++ after ++ [cfg.toVaultEntry codec vault] }) := by
  have hentry : (cfg.toVaultEntry codec vault).name = vaultName := hname
  have hany : ((before ++ after).any fun v => v.name = (cfg.toVaultEntry codec vault).name) =
      decide (vaultName ∈ after.map (·.name)) := by
    rw [hentry, Bool.eq_iff_iff]
    have hbefore : ∀ v ∈ before, v.name ≠ vaultName := fun v hv h => hbefore (h ▸ List.mem_map_of_mem hv)
    simp only [List.any_append, Bool.or_eq_true, List.any_eq_true, decide_eq_true_eq, List.mem_map]
    grind
  simp only [updateRegistrySyncBlock, get_split hvaults hname hbefore, deregister_split hvaults hname hbefore,
    VaultRegistry.register, hany, decide_eq_true_eq]
  by_cases hafter : vaultName ∈ after.map (·.name)
  · simp only [hafter, if_true, hentry]
  · simp only [hafter, if_false]

end Split

/-! ## Saving -/

/-- The file system, and the file as it is, let the registry be saved. -/
def SaveGoes (toml : Toml V) (answers : (op : RegistryOp) → RegistryAnswer op) (registry : VaultRegistry V) : Prop :=
  answers .ensureExists = .ok () ∧ answers .acquireExclusive = .ok () ∧
    answers .readToString = .ok registry.baseline ∧
    ∃ body, toml.toStr registry.onDisk = .ok body ∧ answers (.writeAtomic body) = .ok ()

theorem underLock_answered {α : Type} (body : RegistryRun (Except VaultError α)) :
    (underLock body).answered answers =
      answers .ensureExists >>= fun _ => answers .acquireExclusive >>= fun _ => body.answered answers >>= id := by
  simp only [underLock, answered_bind, answered_request, answered_ofExcept]
  rfl

/-- What a save under the lock comes to, once the file has been read. -/
theorem save_answered (toml : Toml V) (registry : VaultRegistry V) (hensure : answers .ensureExists = .ok ())
    (hlock : answers .acquireExclusive = .ok ())
    {current : Option String} (hread : answers .readToString = .ok current) :
    (registry.save toml).answered answers =
      if current ≠ registry.baseline then .error .registryChanged
      else match toml.toStr registry.onDisk with
        | .error reason => .error (.registrySerializationFailed reason)
        | .ok body => (answers (.writeAtomic body)).map fun _ => registry.rebased (some body) := by
  rw [VaultRegistry.save, underLock_answered, hensure, hlock, answered_bind, answered_request, hread]
  change answered answers (if current ≠ registry.baseline then _ else _) >>= id = _
  split
  · rfl
  · unfold saveUnlocked
    cases toml.toStr registry.onDisk with
    | error reason => rfl
    | ok body => cases hwrite : answers (.writeAtomic body) <;> simp [hwrite] <;> rfl

/-- A registry that was saved has another baseline, one that was not is as it was. -/
theorem saveRegistry_cases (toml : Toml V) (answers : (op : RegistryOp) → RegistryAnswer op)
    (registry : VaultRegistry V) :
    (SaveGoes toml answers registry ∧ ∃ baseline,
      saveRegistry toml answers registry = (.ok (), registry.rebased baseline)) ∨
      (¬ SaveGoes toml answers registry ∧ ∃ e, saveRegistry toml answers registry = (.error (.vault e), registry)) := by
  have failed : ∀ {e}, (registry.save toml).answered answers = .error e →
      saveRegistry toml answers registry = (.error (.vault e), registry) := fun h => by rw [saveRegistry, h]
  -- one request after the other may fail; the first that does ends the save
  cases hensure : answers .ensureExists with
  | error e =>
    refine .inr ⟨fun h => ?_, _, failed (e := e) ?_⟩
    · cases hensure.symm.trans h.1
    · rw [VaultRegistry.save, underLock_answered, hensure]; rfl
  | ok _ =>
    cases hlock : answers .acquireExclusive with
    | error e =>
      refine .inr ⟨fun h => ?_, _, failed (e := e) ?_⟩
      · cases hlock.symm.trans h.2.1
      · rw [VaultRegistry.save, underLock_answered, hensure, hlock]; rfl
    | ok _ =>
      cases hread : answers .readToString with
      | error e =>
        refine .inr ⟨fun h => ?_, _, failed (e := e) ?_⟩
        · cases hread.symm.trans h.2.2.1
        · rw [VaultRegistry.save, underLock_answered, hensure, hlock, answered_bind, answered_request, hread]; rfl
      | ok current =>
        have hsave := save_answered toml registry hensure hlock hread
        by_cases hcurrent : current = registry.baseline
        · rw [if_neg (not_not.2 hcurrent)] at hsave
          cases hbody : toml.toStr registry.onDisk with
          | error reason =>
            rw [hbody] at hsave
            refine .inr ⟨fun ⟨_, _, _, body, h, _⟩ => ?_, _, failed hsave⟩
            cases hbody.symm.trans h
          | ok body =>
            cases hwrite : answers (.writeAtomic body) with
            | error e =>
              simp only [hbody, hwrite] at hsave
              refine .inr ⟨fun ⟨_, _, _, body', h, h'⟩ => ?_, _, failed hsave⟩
              cases hbody.symm.trans h
              cases hwrite.symm.trans h'
            | ok _ =>
              simp only [hbody, hwrite] at hsave
              refine .inl ⟨⟨hensure, hlock, hcurrent ▸ hread, body, hbody, hwrite⟩, some body, ?_⟩
              rw [saveRegistry, hsave]
              rfl
        · rw [if_pos hcurrent] at hsave
          refine .inr ⟨fun h => ?_, _, failed hsave⟩
          exact hcurrent (Except.ok.inj (hread.symm.trans h.2.2.1))

/-! ## The frame -/

/-- The vault without its `[sync]` block. -/
def RegisteredVault.withoutSync (v : RegisteredVault V) : RegisteredVault V := { v with extra := v.extra.erase syncKey }

/-- Nothing has changed but the `[sync]` block of the vault. -/
structure Frame (registry registry' : VaultRegistry V) (vaultName : String) : Prop where
  others : (registry'.vaults.filter fun v => v.name ≠ vaultName) = registry.vaults.filter fun v => v.name ≠ vaultName
  named : (registry'.vaults.filter fun v => v.name = vaultName).map RegisteredVault.withoutSync =
    (registry.vaults.filter fun v => v.name = vaultName).map RegisteredVault.withoutSync
  version : registry'.version = registry.version
  topLevel : registry'.extraTopLevel = registry.extraTopLevel

theorem Frame.refl : Frame registry registry vaultName := ⟨rfl, rfl, rfl, rfl⟩

theorem Frame.rebased_iff {baseline : Option String} :
    Frame registry (registry'.rebased baseline) vaultName ↔ Frame registry registry' vaultName :=
  ⟨fun h => ⟨h.others, h.named, h.version, h.topLevel⟩, fun h => ⟨h.others, h.named, h.version, h.topLevel⟩⟩

theorem toVaultEntry_withoutSync : (cfg.toVaultEntry codec vault).withoutSync = vault.withoutSync := by
  have htable : (vault.extra.table.insert syncKey (codec.encode cfg)).erase syncKey =
    vault.extra.table.erase syncKey := by
    refine Finmap.ext_lookup fun k => ?_
    rw [Finmap.lookup_erase_eq, Finmap.lookup_erase_eq, Finmap.lookup_insert_eq]
    split <;> rfl
  unfold RegisteredVault.withoutSync
  congr 1
  exact Extra.ext htable

theorem filter_others {vaults : List (RegisteredVault V)} (h : vaultName ∉ vaults.map (·.name)) :
    (vaults.filter fun v => v.name ≠ vaultName) = vaults ∧ (vaults.filter fun v => v.name = vaultName) = [] := by
  have hne : ∀ v ∈ vaults, v.name ≠ vaultName := fun v hv he => h (he ▸ List.mem_map_of_mem hv)
  exact ⟨List.filter_eq_self.2 fun v hv => by simpa using hne v hv,
    List.filter_eq_nil_iff.2 fun v hv => by simpa using hne v hv⟩

theorem names_count_split (hvaults : registry.vaults = before ++ vault :: after) (hname : vault.name = vaultName)
    (hbefore : vaultName ∉ before.map (·.name)) :
    registry.names.count vaultName = (after.map (·.name)).count vaultName + 1 := by
  rw [VaultRegistry.names, hvaults, List.map_append, List.count_append, List.count_eq_zero_of_not_mem hbefore,
    List.map_cons, hname, List.count_cons_self, Nat.zero_add]

theorem updateRegistrySyncBlock_frame_iff (codec : SyncCodec V W) (cfg : SyncBlock W) :
    Frame registry (updateRegistrySyncBlock codec registry vaultName cfg).2 vaultName ↔
      registry.names.count vaultName ≤ 1 := by
  cases hget : registry.get vaultName with
  | none =>
    have hcount : registry.names.count vaultName = 0 := List.count_eq_zero.2 (get_eq_none.1 hget)
    have hupdate : (updateRegistrySyncBlock codec registry vaultName cfg).2 = registry := by
      simp [updateRegistrySyncBlock, hget]
    rw [hupdate, hcount]
    exact iff_of_true .refl (Nat.zero_le 1)
  | some vault =>
    obtain ⟨hname, before, after, hvaults, hbefore⟩ := get_eq_some_split hget
    obtain ⟨hothers, hnone⟩ := filter_others hbefore
    have hentry : (cfg.toVaultEntry codec vault).name = vaultName := hname
    rw [updateRegistrySyncBlock_split hvaults hname hbefore codec cfg, names_count_split hvaults hname hbefore]
    by_cases hafter : vaultName ∈ after.map (·.name)
    · rw [if_pos hafter]
      have hpos := List.count_pos_iff.2 hafter
      refine iff_of_false (fun h => ?_) (by omega)
      have hlength := congrArg List.length h.named
      simp only [hvaults, List.filter_append, hnone, List.nil_append, List.length_map] at hlength
      rw [List.filter_cons_of_pos (by simpa using hname), List.length_cons] at hlength
      omega
    · rw [if_neg hafter, List.count_eq_zero_of_not_mem hafter]
      refine iff_of_true ⟨?_, ?_, rfl, rfl⟩ le_rfl
      · simp only [hvaults, List.filter_append, hothers]
        rw [List.filter_cons_of_neg (by simpa using hentry), List.filter_cons_of_neg (by simpa using hname)]
        simp
      · obtain ⟨-, hnone'⟩ := filter_others hafter
        simp only [hvaults, List.filter_append, hnone, hnone', List.nil_append]
        rw [List.filter_cons_of_pos (by simpa using hentry), List.filter_cons_of_pos (by simpa using hname), hnone']
        simp [toVaultEntry_withoutSync]

/-! ## When it holds -/

/-- The registry with the vault at its end, and the block in it. -/
def moved (codec : SyncCodec V W) (registry : VaultRegistry V) (vaultName : String) (cfg : SyncBlock W) :
    VaultRegistry V :=
  { registry with vaults := (registry.vaults.filter fun v => v.name ≠ vaultName) ++
      (registry.vaults.filter fun v => v.name = vaultName).map (cfg.toVaultEntry codec) }

/-- The vault is at the end of the registry, with the block in it. -/
def AlreadyStored (codec : SyncCodec V W) (registry : VaultRegistry V) (vaultName : String) (cfg : SyncBlock W) :
    Prop :=
  ∃ rest entry, registry.vaults = rest ++ [entry] ∧ entry.name = vaultName ∧
    entry.extra.table.lookup syncKey = some (codec.encode cfg)

/-- What `configure_remote` refuses before it changes anything. -/
def Refused (codec : SyncCodec V W) (registry : VaultRegistry V) (vaultName : String) (s3 : S3Config W) : Prop :=
  vaultName ∉ registry.names ∨ (∀ b, EndpointBuilder.fromConfig s3.endpointConfig ≠ .ok b) ∨
    ∃ existing, findDuplicateTarget codec registry s3.endpoint s3.bucket s3.key (some vaultName) = some existing

theorem moved_split (hvaults : registry.vaults = before ++ vault :: after) (hname : vault.name = vaultName)
    (hbefore : vaultName ∉ before.map (·.name)) (hafter : vaultName ∉ after.map (·.name)) :
    moved codec registry vaultName cfg =
      { registry with vaults := before ++ after ++ [cfg.toVaultEntry codec vault] } := by
  obtain ⟨hbefore, hbefore'⟩ := filter_others hbefore
  obtain ⟨hafter, hafter'⟩ := filter_others hafter
  unfold moved
  rw [hvaults, List.filter_append, List.filter_append, hbefore, hbefore',
    List.filter_cons_of_neg (by simpa using hname),
    List.filter_cons_of_pos (by simpa using hname), hafter, hafter']
  rfl

theorem toVaultEntry_eq_self (h : vault.extra.table.lookup syncKey = some (codec.encode cfg)) :
    cfg.toVaultEntry codec vault = vault := by
  have htable : vault.extra.table.insert syncKey (codec.encode cfg) = vault.extra.table := by
    refine Finmap.ext_lookup fun k => ?_
    rw [Finmap.lookup_insert_eq]
    split
    · rename_i hk; rw [hk, h]
    · rfl
  have hextra : vault.extra.insert syncKey (codec.encode cfg) (by decide) = vault.extra := Extra.ext htable
  unfold SyncBlock.toVaultEntry
  rw [hextra]

/-- A vault whose name comes up once, between others. -/
theorem once_split (hcount : registry.names.count vaultName = 1) : ∃ before vault after,
    registry.vaults = before ++ vault :: after ∧ vault.name = vaultName ∧ vaultName ∉ before.map (·.name) ∧
      vaultName ∉ after.map (·.name) := by
  cases hget : registry.get vaultName with
  | none =>
    rw [List.count_eq_zero_of_not_mem (get_eq_none.1 hget)] at hcount
    cases hcount
  | some vault =>
    obtain ⟨hname, before, after, hvaults, hbefore⟩ := get_eq_some_split hget
    rw [names_count_split hvaults hname hbefore, Nat.add_eq_right, List.count_eq_zero] at hcount
    exact ⟨before, vault, after, hvaults, hname, hbefore, hcount⟩

/-- Where the name comes up once, the update changes nothing just when its block is there at the end. -/
theorem moved_eq_self_iff (hcount : registry.names.count vaultName = 1) :
    moved codec registry vaultName cfg = registry ↔ AlreadyStored codec registry vaultName cfg := by
  constructor
  · intro h
    obtain ⟨before, vault, after, hvaults, hname, hbefore, hafter⟩ := once_split hcount
    rw [moved_split hvaults hname hbefore hafter] at h
    refine ⟨before ++ after, cfg.toVaultEntry codec vault, ?_, hname, Finmap.lookup_insert _⟩
    rw [← congrArg VaultRegistry.vaults h]
  · rintro ⟨rest, entry, hvaults, hname, hlookup⟩
    have hrest : vaultName ∉ rest.map (·.name) := by
      rw [VaultRegistry.names, hvaults, List.map_append, List.count_append, List.map_singleton, hname,
        List.count_singleton_self] at hcount
      exact List.count_eq_zero.1 (by omega)
    rw [moved_split hvaults hname hrest (List.not_mem_nil), toVaultEntry_eq_self hlookup, List.append_nil, ← hvaults]

/-- Where the name comes up more than once, the update fails and leaves a vault out. -/
theorem updateRegistrySyncBlock_twice (codec : SyncCodec V W) (cfg : SyncBlock W) (hname : vaultName ∈ registry.names)
    (hcount : registry.names.count vaultName ≠ 1) : ∃ rest,
    updateRegistrySyncBlock codec registry vaultName cfg =
      (.error (.vault (.alreadyRegistered vaultName)), { registry with vaults := rest }) ∧
      ∀ v ∈ rest, v ∈ registry.vaults := by
  cases hget : registry.get vaultName with
  | none => exact absurd hname (get_eq_none.1 hget)
  | some vault =>
    obtain ⟨hvault, before, after, hvaults, hbefore⟩ := get_eq_some_split hget
    have hafter : vaultName ∈ after.map (·.name) := by
      by_contra hafter
      rw [names_count_split hvaults hvault hbefore, List.count_eq_zero_of_not_mem hafter] at hcount
      exact hcount rfl
    refine ⟨before ++ after, ?_, fun v hv => ?_⟩
    · rw [updateRegistrySyncBlock_split hvaults hvault hbefore, if_pos hafter]
    · rw [hvaults]
      rcases List.mem_append.1 hv with hv | hv
      · exact List.mem_append_left _ hv
      · exact List.mem_append_right _ (List.mem_cons_of_mem vault hv)

/-- What is refused leaves the registry as it was. -/
theorem configureRemote_refused (toml : Toml V) (answers : (op : RegistryOp) → RegistryAnswer op)
    (h : Refused codec registry vaultName s3) :
    ∃ e, configureRemote toml codec answers registry vaultName s3 = (.error e, registry) := by
  unfold configureRemote
  rcases h with hname | hendpoint | ⟨existing, hdup⟩
  · rw [get_eq_none.2 hname]
    exact ⟨_, rfl⟩
  · cases registry.get vaultName with
    | none => exact ⟨_, rfl⟩
    | some _ =>
      cases hb : EndpointBuilder.fromConfig s3.endpointConfig with
      | error e => exact ⟨_, rfl⟩
      | ok b => exact absurd hb (hendpoint b)
  · rw [hdup]
    split
    · exact ⟨_, rfl⟩
    · split <;> exact ⟨_, rfl⟩

/-- What is not refused is updated, and saved if that went well. -/
theorem configureRemote_accepted (toml : Toml V) (answers : (op : RegistryOp) → RegistryAnswer op)
    (h : ¬ Refused codec registry vaultName s3) :
    vaultName ∈ registry.names ∧ configureRemote toml codec answers registry vaultName s3 =
      if registry.names.count vaultName = 1 then saveRegistry toml answers (moved codec registry vaultName (.ofS3 s3))
      else updateRegistrySyncBlock codec registry vaultName (.ofS3 s3) := by
  simp only [Refused, not_or, not_forall, not_not, not_exists] at h
  obtain ⟨hname, ⟨b, hendpoint⟩, hdup⟩ := h
  have hdup := Option.eq_none_iff_forall_ne_some.2 hdup
  refine ⟨hname, ?_⟩
  cases hget : registry.get vaultName with
  | none => exact absurd hname (get_eq_none.1 hget)
  | some vault =>
    obtain ⟨hvault, before, after, hvaults, hbefore⟩ := get_eq_some_split hget
    have hupdate := updateRegistrySyncBlock_split hvaults hvault hbefore codec (.ofS3 s3)
    have hcount := names_count_split hvaults hvault hbefore
    simp only [configureRemote, hget, hendpoint, hdup]
    by_cases hafter : vaultName ∈ after.map (·.name)
    · have hpos := List.count_pos_iff.2 hafter
      rw [if_pos hafter] at hupdate
      rw [if_neg (by omega), hupdate]
    · rw [List.count_eq_zero_of_not_mem hafter] at hcount
      rw [if_neg hafter] at hupdate
      rw [if_pos hcount, hupdate, moved_split hvaults hvault hbefore hafter]

theorem moved_frame (codec : SyncCodec V W) (cfg : SyncBlock W) (hcount : registry.names.count vaultName = 1) :
    Frame registry (moved codec registry vaultName cfg) vaultName := by
  obtain ⟨before, vault, after, hvaults, hname, hbefore, hafter⟩ := once_split hcount
  have hframe := (updateRegistrySyncBlock_frame_iff codec cfg).2 hcount.le
  rw [updateRegistrySyncBlock_split hvaults hname hbefore codec cfg, if_neg hafter] at hframe
  rw [moved_split hvaults hname hbefore hafter]
  exact hframe

/-- The registry is kept when the call refuses, or saves, or has nothing to change. -/
theorem configureRemote_kept_iff :
    (Frame registry (configureRemote toml codec answers registry vaultName s3).2 vaultName ∧
        ∀ e, (configureRemote toml codec answers registry vaultName s3).1 = .error e →
          (configureRemote toml codec answers registry vaultName s3).2 = registry) ↔
      Refused codec registry vaultName s3 ∨ (registry.names.count vaultName = 1 ∧
        (SaveGoes toml answers (moved codec registry vaultName (.ofS3 s3)) ∨
          AlreadyStored codec registry vaultName (.ofS3 s3))) := by
  by_cases hrefused : Refused codec registry vaultName s3
  · obtain ⟨e, heq⟩ := configureRemote_refused toml answers hrefused
    rw [heq]
    exact iff_of_true ⟨.refl, fun _ _ => rfl⟩ (.inl hrefused)
  · obtain ⟨hname, heq⟩ := configureRemote_accepted toml answers hrefused
    rw [heq]
    by_cases hcount : registry.names.count vaultName = 1
    · rw [if_pos hcount]
      have hframe := moved_frame codec (.ofS3 s3) hcount
      rcases saveRegistry_cases toml answers
        (moved codec registry vaultName (.ofS3 s3)) with ⟨hgoes, baseline, hsave⟩ | ⟨hfails, e, hsave⟩
      · rw [hsave]
        exact iff_of_true ⟨Frame.rebased_iff.2 hframe, fun e he => by cases he⟩ (.inr ⟨hcount, .inl hgoes⟩)
      · rw [hsave]
        constructor
        · rintro ⟨-, hkept⟩
          exact .inr ⟨hcount, .inr ((moved_eq_self_iff hcount).1 (hkept _ rfl))⟩
        · rintro (h | ⟨-, h | h⟩)
          · exact absurd h hrefused
          · exact absurd h hfails
          · exact ⟨hframe, fun _ _ => (moved_eq_self_iff hcount).2 h⟩
    · rw [if_neg hcount]
      have hpos := List.count_pos_iff.2 hname
      refine iff_of_false (fun ⟨hframe, _⟩ => ?_) fun h => ?_
      · have := (updateRegistrySyncBlock_frame_iff _ _).1 hframe
        omega
      · rcases h with h | ⟨h, -⟩
        · exact hrefused h
        · exact hcount h

/-- However the sync went, what it writes is the block of a vault whose name comes up once. -/
theorem syncNowBookkeeping_frame_iff {update : SyncBlock W → SyncBlock W}
    {result : Except SyncError (SyncOutcome × SyncPointers)} :
    Frame registry (syncNowBookkeeping toml codec answers registry vaultName cfg update result).2 vaultName ↔
      registry.names.count vaultName ≤ 1 := by
  have saved : ∀ r : VaultRegistry V,
      Frame registry (saveRegistry toml answers r).2 vaultName ↔ Frame registry r vaultName := by
    intro r
    rcases saveRegistry_cases toml answers r with ⟨-, b, hsave⟩ | ⟨-, e, hsave⟩
    · rw [hsave, Frame.rebased_iff]
    · rw [hsave]
  unfold syncNowBookkeeping
  cases result with
  | ok a =>
    rw [← updateRegistrySyncBlock_frame_iff codec { update cfg with
      lastSyncedRemoteEtag := a.2.remoteEtag, lastSyncedLocalSha256 := a.2.localSha256 }]
    simp only
    rcases updateRegistrySyncBlock codec registry vaultName _ with ⟨_ | _, r⟩
    · exact Iff.rfl
    · exact saved r
  | error err =>
    rw [← updateRegistrySyncBlock_frame_iff codec (update cfg)]
    simp only
    rcases updateRegistrySyncBlock codec registry vaultName _ with ⟨_ | _, r⟩
    · exact Iff.rfl
    · exact saved r

/-- When `configure_remote` changes no more than it should, and nothing if it fails, and when a sync does. -/
theorem bookkeeping_kept_iff (toml : Toml V) (codec : SyncCodec V W) :
    (∀ answers registry vaultName s3,
      (Frame registry (configureRemote toml codec answers registry vaultName s3).2 vaultName ∧
          ∀ e, (configureRemote toml codec answers registry vaultName s3).1 = .error e →
            (configureRemote toml codec answers registry vaultName s3).2 = registry) ↔
        Refused codec registry vaultName s3 ∨ (registry.names.count vaultName = 1 ∧
          (SaveGoes toml answers (moved codec registry vaultName (.ofS3 s3)) ∨
            AlreadyStored codec registry vaultName (.ofS3 s3)))) ∧
      ∀ answers registry vaultName cfg update result,
        Frame registry (syncNowBookkeeping toml codec answers registry vaultName cfg update result).2 vaultName ↔
          registry.names.count vaultName ≤ 1 :=
  ⟨fun _ _ _ _ => configureRemote_kept_iff, fun _ _ _ _ _ _ => syncNowBookkeeping_frame_iff⟩

/-- A block is its own TOML value. -/
def plainCodec : SyncCodec (SyncBlock Unit) Unit := ⟨id, some⟩

def unconfigured : VaultRegistry (SyncBlock Unit) :=
  { withPaths with vaults := [⟨"personal", "/v/personal.kdbx", "2026-05-17T10:00:00-06:00", none, .empty⟩] }

def personalS3 : S3Config Unit where
  bucket := "falach".toList
  key := "personal.kdbx".toList
  region := "us-east-1".toList
  credentials := .envVars "PERSONAL_"

/-- Another process holds the registry lock. -/
def contended : (op : RegistryOp) → RegistryAnswer op
  | .ensureExists => .ok ()
  | .acquireExclusive => .error .contended
  | .readToString => .ok none
  | .writeAtomic _ => .ok ()
  | .unlock => ()

theorem configureRemote_contended_changes :
    ¬ ∀ (toml : Toml (SyncBlock Unit)) answers registry vaultName s3 e,
      (configureRemote toml plainCodec answers registry vaultName s3).1 = .error e →
        (configureRemote toml plainCodec answers registry vaultName s3).2 = registry := by
  intro h
  have run := h ⟨fun _ => none, fun _ => .error ""⟩ contended unconfigured "personal" personalS3 (.vault .contended)
  revert run
  decide +kernel

end Falach
