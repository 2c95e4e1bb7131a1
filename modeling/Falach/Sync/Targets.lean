import Falach.S3.Address
import Falach.Sync.Bookkeeping
/-!
# One target, one vault

A duplicate is a vault with the same canonical target. No call of `configure_remote` gives a vault the target of
another; whether two targets are the same object is a matter of how their URLs are built.
-/

namespace Falach

open Program VaultRegistry

variable {V W : Type} {toml : Toml V} {codec : SyncCodec V W} {answers : (op : RegistryOp) → RegistryAnswer op}
  {registry registry' : VaultRegistry V} {vaultName name : String} {s3 s3' : S3Config W}

/-- A call of `configure_remote`, and how the file system answers it. -/
structure ConfigureCall (W : Type) where
  vaultName : String
  s3 : S3Config W
  answers : (op : RegistryOp) → RegistryAnswer op

/-- The call on a registry. -/
def ConfigureCall.run (toml : Toml V) (codec : SyncCodec V W) (registry : VaultRegistry V) (call : ConfigureCall W) :
    Except SyncError Unit × VaultRegistry V :=
  configureRemote toml codec call.answers registry call.vaultName call.s3

/-- The registry after some calls. -/
def configureAll (toml : Toml V) (codec : SyncCodec V W) (registry : VaultRegistry V) (calls : List (ConfigureCall W)) :
    VaultRegistry V :=
  calls.foldl (fun registry call => (call.run toml codec registry).2) registry

/-! ## Duplicates -/

/-- No other vault has a canonical target of the vault `name`. -/
def Apart (codec : SyncCodec V W) (registry : VaultRegistry V) (name : String) : Prop :=
  ∀ v ∈ registry.vaults, v.name = name → ∀ v' ∈ registry.vaults, v'.name ≠ name →
    ∀ s3 ∈ v.s3Config codec, ∀ s3' ∈ v'.s3Config codec, s3.canonicalTarget ≠ s3'.canonicalTarget

/-- A duplicate is found just when another vault has the same canonical target. -/
theorem findDuplicateTarget_isSome_iff {endpoint : Option Text} {bucket key : Text} :
    (findDuplicateTarget codec registry endpoint bucket key (some vaultName)).isSome ↔
      ∃ v ∈ registry.vaults, v.name ≠ vaultName ∧
        ∃ s3 ∈ v.s3Config codec, s3.canonicalTarget = canonicalizeTarget endpoint bucket key := by
  unfold findDuplicateTarget
  rw [List.findSome?_isSome_iff]
  have found : ∀ v : RegisteredVault V, (do
      let s3 ← v.s3Config codec
      if s3.canonicalTarget = canonicalizeTarget endpoint bucket key then some v.name else none).isSome ↔
      ∃ s3 ∈ v.s3Config codec, s3.canonicalTarget = canonicalizeTarget endpoint bucket key := by
    intro v
    cases v.s3Config codec with
    | none => simp
    | some s3 => simp
  simp only [found, List.mem_filter, decide_eq_true_eq, ne_eq, Option.some.injEq, and_assoc]

/-! ## One call -/

theorem toVaultEntry_s3Config (hcodec : codec.RoundTrips) (v : RegisteredVault V) :
    ((SyncBlock.ofS3 s3).toVaultEntry codec v).s3Config codec = some s3 := by
  have hlookup : ((SyncBlock.ofS3 s3).toVaultEntry codec v).extra.table.lookup syncKey =
    some (codec.encode (.ofS3 s3)) :=
    Finmap.lookup_insert _
  simp only [RegisteredVault.s3Config, SyncBlock.fromVaultEntry, hlookup, Option.bind_some]
  rw [hcodec]
  rfl

theorem mem_moved {cfg : SyncBlock W} {v : RegisteredVault V} : v ∈ (moved codec registry vaultName cfg).vaults ↔
    (v ∈ registry.vaults ∧ v.name ≠ vaultName) ∨
      ∃ u ∈ registry.vaults, u.name = vaultName ∧ cfg.toVaultEntry codec u = v := by
  simp [moved, and_assoc]

/-- What is accepted is apart from all others, and others stay apart. -/
theorem moved_apart (hcodec : codec.RoundTrips) (hrefused : ¬ Refused codec registry vaultName s3)
    (h : name = vaultName ∨ Apart codec registry name) :
    Apart codec (moved codec registry vaultName (.ofS3 s3)) name := by
  have fresh : ∀ v ∈ registry.vaults, v.name ≠ vaultName → ∀ t ∈ v.s3Config codec,
    t.canonicalTarget ≠ s3.canonicalTarget := by
    intro v hv hne t ht heq
    have hsome := findDuplicateTarget_isSome_iff.2 ⟨v, hv, hne, t, ht, heq⟩
    exact hrefused (.inr (.inr (Option.isSome_iff_exists.1 hsome)))
  intro v hv hname v' hv' hname' t ht t' ht'
  rcases mem_moved.1 hv with ⟨hv, hne⟩ | ⟨u, hu, hune, rfl⟩
  · rcases mem_moved.1 hv' with ⟨hv', hne'⟩ | ⟨u', hu', hune', rfl⟩
    · rcases h with rfl | h
      · exact absurd hname hne
      · exact h v hv hname v' hv' hname' t ht t' ht'
    · rw [toVaultEntry_s3Config hcodec, Option.mem_some_iff] at ht'
      exact ht' ▸ fresh v hv hne t ht
  · rw [toVaultEntry_s3Config hcodec, Option.mem_some_iff] at ht
    rcases mem_moved.1 hv' with ⟨hv', hne'⟩ | ⟨u', hu', hune', rfl⟩
    · exact fun heq => fresh v' hv' hne' t' ht' (ht ▸ heq.symm)
    · exact absurd (hune'.trans hune.symm) fun he => hname' (he.trans hname)

theorem Apart.subset (h : Apart codec registry name) (hsub : ∀ v ∈ registry'.vaults, v ∈ registry.vaults) :
    Apart codec registry' name :=
  fun v hv hname v' hv' => h v (hsub v hv) hname v' (hsub v' hv')

/-- A call keeps the vaults that are apart so, and if it returns `Ok` its vault is one of them. -/
theorem ConfigureCall.run_apart (hcodec : codec.RoundTrips) {call : ConfigureCall W}
    (h : Apart codec registry name ∨ (name = call.vaultName ∧ (call.run toml codec registry).1 = .ok ())) :
    Apart codec (call.run toml codec registry).2 name := by
  by_cases hrefused : Refused codec registry call.vaultName call.s3
  · obtain ⟨e, heq⟩ := configureRemote_refused toml call.answers hrefused
    rw [ConfigureCall.run, heq] at h ⊢
    exact h.resolve_right fun ⟨_, hok⟩ => by cases hok
  · obtain ⟨hname, heq⟩ := configureRemote_accepted toml call.answers hrefused
    rw [ConfigureCall.run, heq] at h ⊢
    by_cases hcount : registry.names.count call.vaultName = 1
    · rw [if_pos hcount] at h ⊢
      have hmoved := moved_apart hcodec hrefused (h.symm.imp_left And.left)
      rcases saveRegistry_cases toml call.answers (moved codec registry call.vaultName (.ofS3 call.s3)) with
        ⟨-, baseline, hsave⟩ | ⟨-, e, hsave⟩
      · rw [hsave]; exact hmoved
      · rw [hsave]; exact hmoved
    · rw [if_neg hcount] at h ⊢
      obtain ⟨rest, hupdate, hrest⟩ := updateRegistrySyncBlock_twice codec (.ofS3 call.s3) hname hcount
      rw [hupdate] at h ⊢
      exact (h.resolve_right fun ⟨_, hok⟩ => by cases hok).subset hrest

/-! ## Any calls -/

theorem configureAll_append {calls calls' : List (ConfigureCall W)} :
    configureAll toml codec registry (calls ++ calls') =
      configureAll toml codec (configureAll toml codec registry calls) calls' :=
  List.foldl_append

theorem configureAll_apart (hcodec : codec.RoundTrips) {calls : List (ConfigureCall W)}
    (h : Apart codec registry name) :
    Apart codec (configureAll toml codec registry calls) name := by
  induction calls generalizing registry with
  | nil => exact h
  | cons call calls ih => exact ih (ConfigureCall.run_apart hcodec (.inl h))

/-- Once a call has returned `Ok`, no other vault ever has the target of its vault. -/
theorem accepted_apart (hcodec : codec.RoundTrips) {before after : List (ConfigureCall W)} {call : ConfigureCall W}
    (hok : (call.run toml codec (configureAll toml codec registry before)).1 = .ok ()) :
    Apart codec (configureAll toml codec registry (before ++ call :: after)) call.vaultName := by
  rw [configureAll_append]
  change Apart codec (configureAll toml codec (call.run toml codec _).2 after) call.vaultName
  exact configureAll_apart hcodec (ConfigureCall.run_apart hcodec (.inr ⟨rfl, hok⟩))

/-- `configure_remote` reports a duplicate just when another vault has the same canonical target. -/
theorem configureRemote_duplicate_iff : (∃ endpoint bucket key existing,
    (configureRemote toml codec answers registry vaultName s3).1 =
      .error (.duplicateTarget endpoint bucket key existing)) ↔
      vaultName ∈ registry.names ∧ (∃ b, EndpointBuilder.fromConfig s3.endpointConfig = .ok b) ∧
        ∃ v ∈ registry.vaults, v.name ≠ vaultName ∧
          ∃ t ∈ v.s3Config codec, t.canonicalTarget = s3.canonicalTarget := by
  have hdup : (findDuplicateTarget codec registry s3.endpoint s3.bucket s3.key (some vaultName)).isSome ↔ _ :=
    findDuplicateTarget_isSome_iff
  change _ ↔ _ ∧ _ ∧ ∃ v ∈ registry.vaults, v.name ≠ vaultName ∧ ∃ t ∈ v.s3Config codec,
    t.canonicalTarget = canonicalizeTarget s3.endpoint s3.bucket s3.key
  rw [← hdup, Option.isSome_iff_exists]
  by_cases hrefused : Refused codec registry vaultName s3
  · unfold configureRemote
    cases hget : registry.get vaultName with
    | none => exact iff_of_false (by rintro ⟨_, _, _, _, h⟩; cases h) fun h => get_eq_none.1 hget h.1
    | some vault =>
      have hname : vaultName ∈ registry.names := by
        by_contra hname
        rw [get_eq_none.2 hname] at hget
        cases hget
      cases hb : EndpointBuilder.fromConfig s3.endpointConfig with
      | error e => exact iff_of_false (by rintro ⟨_, _, _, _, h⟩; cases h) (by rintro ⟨-, ⟨b, h⟩, -⟩; cases h)
      | ok b =>
        have hfound := (hrefused.resolve_left (not_not.2 hname)).resolve_left fun h => h b hb
        obtain ⟨existing, hexisting⟩ := hfound
        rw [hexisting]
        exact iff_of_true ⟨_, _, _, _, rfl⟩ ⟨hname, ⟨b, rfl⟩, existing, rfl⟩
  · obtain ⟨hname, heq⟩ := configureRemote_accepted toml answers hrefused
    refine iff_of_false ?_ fun ⟨_, _, h⟩ => hrefused (.inr (.inr h))
    rintro ⟨_, _, _, _, h⟩
    rw [heq] at h
    by_cases hcount : registry.names.count vaultName = 1
    · rw [if_pos hcount] at h
      rcases saveRegistry_cases toml answers (moved codec registry vaultName (.ofS3 s3)) with
        ⟨-, baseline, hsave⟩ | ⟨-, e, hsave⟩
      · rw [hsave] at h; cases h
      · rw [hsave] at h; cases h
    · rw [if_neg hcount] at h
      obtain ⟨rest, hupdate, -⟩ := updateRegistrySyncBlock_twice codec (.ofS3 s3) hname hcount
      rw [hupdate] at h
      cases h

/-! ## Targets and objects -/

/-- The bucket and key are put into a URL as they are, and their parts can be told in it; so can those of the
canonical target. -/
structure Plain (s3 : S3Config W) : Prop where
  bucket_slash : '/' ∉ s3.bucket
  bucket_bar : '|' ∉ s3.bucket
  bucket_lower : Text.lower s3.bucket = s3.bucket
  key : s3.key.head? ≠ some '/'
  endpoint_bar : ∀ e ∈ s3.endpoint, '|' ∉ e

/-- Both name an endpoint, or both leave it to one region, and their URLs are built alike. -/
structure BuiltAlike (s3 s3' : S3Config W) (b b' : EndpointBuilder) : Prop where
  style : b.style = b'.style
  endpoint : s3.endpoint.isSome = s3'.endpoint.isSome
  region : s3.endpoint = none → s3.region = s3'.region

theorem canonicalTarget_eq {b : EndpointBuilder} (hb : EndpointBuilder.fromConfig s3.endpointConfig = .ok b) :
    s3.canonicalTarget = (if s3.endpoint.isSome then Text.lower b.baseHost else "<aws-default>".toList) ++
      '|' :: (s3.bucket ++ '|' :: s3.key) := by
  have hbar : "|".toList = ['|'] := rfl
  unfold S3Config.canonicalTarget canonicalizeTarget
  cases hendpoint : s3.endpoint with
  | none => simp [hbar]
  | some e =>
    have he : canonicalizeEndpoint e = Text.lower b.baseHost := canonicalizeEndpoint_eq hb hendpoint
    simp [he, hbar]

theorem canonicalTarget_part {b : EndpointBuilder} (hb : EndpointBuilder.fromConfig s3.endpointConfig = .ok b)
    (h : Plain s3) : '|' ∉ (if s3.endpoint.isSome then Text.lower b.baseHost else "<aws-default>".toList) := by
  split
  · rename_i hsome
    obtain ⟨e, he⟩ := Option.isSome_iff_exists.1 hsome
    exact not_mem_baseHost (by decide) (by decide) hb he (h.endpoint_bar e he)
  · decide

theorem slash_not_mem_lower {b : EndpointBuilder} (hb : EndpointBuilder.fromConfig s3.endpointConfig = .ok b) :
    '/' ∉ Text.lower b.baseHost := by
  obtain ⟨-, -, -, -, -, hslash, -⟩ := fromConfig_ok hb
  rwa [Text.mem_lower_iff (by decide) (by decide)]

/-- Addresses of one style are equal just when their parts are. -/
theorem address_eq_iff {b b' : EndpointBuilder} (hb : EndpointBuilder.fromConfig s3.endpointConfig = .ok b)
    (hb' : EndpointBuilder.fromConfig s3'.endpointConfig = .ok b') (h : Plain s3) (h' : Plain s3')
    (hstyle : b.style = b'.style) :
    address (b.objectUrl s3.bucket s3.key) = address (b'.objectUrl s3'.bucket s3'.key) ↔
      Text.lower b.baseHost = Text.lower b'.baseHost ∧ s3.bucket = s3'.bucket ∧ s3.key = s3'.key := by
  have hslash := slash_not_mem_lower hb
  have hslash' := slash_not_mem_lower hb'
  rw [address_objectUrl hb h.bucket_slash h.key, address_objectUrl hb' h'.bucket_slash h'.key, ← hstyle]
  cases hb'' : b.style with
  | virtualHosted =>
    have hdot : '.' ∉ s3.bucket := dot_not_mem_bucket hb hb''
    have hdot' : '.' ∉ s3'.bucket := dot_not_mem_bucket hb' (hstyle ▸ hb'')
    rw [h.bucket_lower, h'.bucket_lower]
    simp only
    rw [Text.parts_eq_iff hdot hdot', Text.parts_eq_iff hslash hslash']
    tauto
  | pathStyle =>
    simp only
    rw [Text.parts_eq_iff hslash hslash', Text.parts_eq_iff h.bucket_slash h'.bucket_slash]

/-- Canonical targets tell apart what the URLs do, up to the scheme and the case of the host. -/
theorem canonicalTarget_eq_iff {b b' : EndpointBuilder} (hb : EndpointBuilder.fromConfig s3.endpointConfig = .ok b)
    (hb' : EndpointBuilder.fromConfig s3'.endpointConfig = .ok b') (h : Plain s3) (h' : Plain s3')
    (halike : BuiltAlike s3 s3' b b') :
    s3.canonicalTarget = s3'.canonicalTarget ↔
      address (b.objectUrl s3.bucket s3.key) = address (b'.objectUrl s3'.bucket s3'.key) := by
  rw [canonicalTarget_eq hb, canonicalTarget_eq hb',
    Text.parts_eq_iff (canonicalTarget_part hb h) (canonicalTarget_part hb' h'),
    Text.parts_eq_iff h.bucket_bar h'.bucket_bar, address_eq_iff hb hb' h h' halike.style, ← halike.endpoint]
  cases hendpoint : s3.endpoint with
  | some e => simp
  | none =>
    -- without an endpoint the host comes from the region
    have hnone : s3'.endpoint = none := by
      rw [← Option.not_isSome_iff_eq_none, ← halike.endpoint, hendpoint]
      simp
    obtain ⟨scheme, rest, hsplit, -, hhost, -⟩ := fromConfig_ok hb
    obtain ⟨scheme', rest', hsplit', -, hhost', -⟩ := fromConfig_ok hb'
    have hregion := halike.region hendpoint
    simp only [S3Config.endpointConfig, hendpoint, hnone, hregion, Option.getD_none] at hsplit hsplit'
    cases hsplit.symm.trans hsplit'
    rw [hhost, hhost']
    simp

/-- Whatever is configured in whatever order, no vault gets the target of one that was accepted; duplicates are those
of the canonical target, and where URLs are built alike, it tells them apart as they do. -/
theorem one_target_one_vault (toml : Toml V) (hcodec : codec.RoundTrips) :
    (∀ registry before call after, (call.run toml codec (configureAll toml codec registry before)).1 = .ok () →
      Apart codec (configureAll toml codec registry (before ++ call :: after)) call.vaultName) ∧
    (∀ answers registry vaultName s3, (∃ endpoint bucket key existing,
      (configureRemote toml codec answers registry vaultName s3).1 =
        .error (.duplicateTarget endpoint bucket key existing)) ↔
      vaultName ∈ registry.names ∧ (∃ b, EndpointBuilder.fromConfig s3.endpointConfig = .ok b) ∧
        ∃ v ∈ registry.vaults, v.name ≠ vaultName ∧ ∃ t ∈ v.s3Config codec, t.canonicalTarget = s3.canonicalTarget) ∧
    ∀ (s3 s3' : S3Config W) b b', EndpointBuilder.fromConfig s3.endpointConfig = .ok b →
      EndpointBuilder.fromConfig s3'.endpointConfig = .ok b' → Plain s3 → Plain s3' → BuiltAlike s3 s3' b b' →
      (s3.canonicalTarget = s3'.canonicalTarget ↔
        address (b.objectUrl s3.bucket s3.key) = address (b'.objectUrl s3'.bucket s3'.key)) :=
  ⟨fun _ _ _ _ hok => accepted_apart hcodec hok, fun _ _ _ _ => configureRemote_duplicate_iff,
    fun _ _ _ _ hb hb' h h' halike => canonicalTarget_eq_iff hb hb' h h' halike⟩

theorem plainCodec_roundTrips : plainCodec.RoundTrips := fun _ => rfl

/-- Two vaults without a remote. -/
def twoUnconfigured : VaultRegistry (SyncBlock Unit) :=
  { withPaths with vaults := [⟨"personal", "/v/personal.kdbx", "2026-05-17T10:00:00-06:00", none, .empty⟩,
      ⟨"work", "/v/work.kdbx", "2026-05-17T10:00:00-06:00", none, .empty⟩] }

/-- Every registry has the same text. -/
def blankToml : Toml (SyncBlock Unit) := ⟨fun _ => none, fun _ => .ok ""⟩

/-- The file system as it is when the file holds `contents`. -/
def holding (contents : Option String) : (op : RegistryOp) → RegistryAnswer op
  | .ensureExists => .ok ()
  | .acquireExclusive => .ok ()
  | .readToString => .ok contents
  | .writeAtomic _ => .ok ()
  | .unlock => ()

def configurePersonal : ConfigureCall Unit := ⟨"personal", personalS3, holding none⟩

/-- The endpoint that `personalS3` leaves out, written out. -/
def explicitS3 : S3Config Unit := { personalS3 with endpoint := some "https://s3.us-east-1.amazonaws.com".toList }

def configureWork (s3 : S3Config Unit) : ConfigureCall Unit := ⟨"work", s3, holding (some "")⟩

/-- After one accepted call. -/
theorem one_target_one_vault_configured :
    Apart plainCodec (configureAll blankToml plainCodec twoUnconfigured ([] ++ [configurePersonal])) "personal" ∧
      ∃ b, EndpointBuilder.fromConfig personalS3.endpointConfig = .ok b ∧
        (personalS3.canonicalTarget = personalS3.canonicalTarget ↔
          address (b.objectUrl personalS3.bucket personalS3.key) =
          address (b.objectUrl personalS3.bucket personalS3.key)) := by
  have hok : (configurePersonal.run blankToml plainCodec twoUnconfigured).1 = .ok () := by decide +kernel
  have hplain : Plain personalS3 := ⟨by decide, by decide, by decide, by decide, nofun⟩
  have hb : EndpointBuilder.fromConfig personalS3.endpointConfig = .ok ⟨"https://s3.us-east-1.amazonaws.com".toList,
      "s3.us-east-1.amazonaws.com".toList, .virtualHosted⟩ := by decide +kernel
  obtain ⟨hapart, -, htarget⟩ := one_target_one_vault blankToml plainCodec_roundTrips
  exact ⟨hapart twoUnconfigured [] configurePersonal [] hok, _, hb,
    htarget _ _ _ _ hb hb hplain hplain ⟨rfl, rfl, fun _ => rfl⟩⟩

/-- A default endpoint is not taken for the same one written out, and a target that is reached by another style is taken
for the same. -/
theorem targets_are_not_urls :
    (¬ ∀ registry (first second : ConfigureCall Unit) b b', first.vaultName ≠ second.vaultName →
      EndpointBuilder.fromConfig first.s3.endpointConfig = .ok b →
      EndpointBuilder.fromConfig second.s3.endpointConfig = .ok b' →
      (first.run blankToml plainCodec registry).1 = .ok () →
      (second.run blankToml plainCodec (first.run blankToml plainCodec registry).2).1 = .ok () →
      b.objectUrl first.s3.bucket first.s3.key ≠ b'.objectUrl second.s3.bucket second.s3.key) ∧
    ¬ ∀ registry (first second : ConfigureCall Unit) b b', EndpointBuilder.fromConfig first.s3.endpointConfig = .ok b →
      EndpointBuilder.fromConfig second.s3.endpointConfig = .ok b' →
      (first.run blankToml plainCodec registry).1 = .ok () →
      (∃ endpoint bucket key existing,
        (second.run blankToml plainCodec (first.run blankToml plainCodec registry).2).1 =
          .error (.duplicateTarget endpoint bucket key existing)) →
      address (b.objectUrl first.s3.bucket first.s3.key) = address (b'.objectUrl second.s3.bucket second.s3.key) := by
  have hb : EndpointBuilder.fromConfig personalS3.endpointConfig = .ok ⟨"https://s3.us-east-1.amazonaws.com".toList,
      "s3.us-east-1.amazonaws.com".toList, .virtualHosted⟩ := by decide +kernel
  refine ⟨fun h => ?_, fun h => ?_⟩
  · refine h twoUnconfigured configurePersonal (configureWork explicitS3) _ _ (by decide) hb hb ?_ ?_ rfl
    · decide +kernel
    · decide +kernel
  · have hb' : EndpointBuilder.fromConfig { personalS3 with pathStyle := true }.endpointConfig =
        .ok ⟨"https://s3.us-east-1.amazonaws.com".toList, "s3.us-east-1.amazonaws.com".toList, .pathStyle⟩ := by
          decide +kernel
    have heq := h twoUnconfigured configurePersonal (configureWork { personalS3 with pathStyle := true }) _ _ hb hb'
      (by decide +kernel) ⟨none, "falach".toList, "personal.kdbx".toList, "personal", by decide +kernel⟩
    revert heq
    decide +kernel

end Falach
