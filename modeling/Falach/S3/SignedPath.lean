import Falach.Lib.Urls
import Falach.S3.Address
import Falach.S3.Signer
/-!
# What is signed and what is sent

The URL of a request and the path and host that are signed for it. The key goes into the URL as it is, and only the
signed path is encoded: a key that a URL reads as more than a path is signed under one path and sent under another.
-/

namespace Falach

namespace EndpointBuilder

/-- The `Host` header. -/
def hostHeader (b : EndpointBuilder) (bucket : Text) : Text :=
  match b.style with
  | .virtualHosted => bucket ++ ".".toList ++ b.baseHost
  | .pathStyle => b.baseHost

/-- `path_for_request`. -/
def pathForRequest (b : EndpointBuilder) (bucket key : Text) : Text :=
  let key := Text.trimStart '/' key
  match b.style with
  | .virtualHosted => "/".toList ++ key
  | .pathStyle => "/".toList ++ bucket ++ "/".toList ++ key

end EndpointBuilder

/-- What is handed to the HTTP backend. -/
structure SignedRequest where
  method : Text
  url : Text
  headers : List NameValue
  body : List UInt8

/-- One attempt of `Client::signed_request` for an object. -/
def SignedRequest.ofObject (b : EndpointBuilder) (signer : Signer) (f : SigningFunctions) (now : SigningTime)
    (method bucket key : Text) (extraHeaders : List NameValue) (body : List UInt8) : SignedRequest :=
  let host := b.hostHeader bucket
  let path := b.pathForRequest bucket key
  let contentLength := if body = [] then [] else [("content-length".toList, (toString body.length).toList)]
  let headers := ("host".toList, host) :: contentLength ++ extraHeaders
  { method := method
    url := b.objectUrl bucket key
    headers := signer.sign f method path [] headers body now
    body := body }

/-- The URL of a request says what is signed for it: the path, up to its encoding, no query, no fragment and the host.
-/
structure UrlAgrees (request : SignedRequest) (path host : Text) : Prop where
  path : Signer.canonicalUri (Uri.removeDotSegments (Uri.parse request.url).path) = Signer.canonicalUri path
  query : (Uri.parse request.url).query = none
  fragment : (Uri.parse request.url).fragment = none
  authority : (Uri.parse request.url).authority = some host
  signed : request.headers.head? = some ("host".toList, host)

/-- The text is only a path to a URL: it has no delimiter and no dot segment. -/
def PathOnly (s : Text) : Prop := '?' ∉ s ∧ '#' ∉ s ∧ ∀ segment ∈ s.splitOn '/', ¬ Uri.IsDot segment

instance (s : Text) : Decidable (PathOnly s) := inferInstanceAs (Decidable (_ ∧ _))

/-- The key and the bucket are nothing more to a URL than the part they are put into. -/
def UrlSafe (style : AddressingStyle) (bucket key : Text) : Prop :=
  PathOnly (Text.trimStart '/' key) ∧
    ((style = .virtualHosted → '/' ∉ bucket ∧ '?' ∉ bucket ∧ '#' ∉ bucket) ∧ (style = .pathStyle → PathOnly bucket))

variable {cfg : EndpointConfig} {b : EndpointBuilder} {bucket key scheme host path : Text}

/-! ## The request path -/

theorem encodePath_joined_length (segments : List Text) : (Signer.encodePath (Uri.joined segments)).length =
    (segments.map fun s => (Signer.encodePath ('/' :: s)).length).sum := by
  induction segments with
  | nil => rfl
  | cons s segments ih =>
    rw [Uri.joined, List.flatMap_cons, Signer.encodePath_append, List.length_append, List.map_cons, List.sum_cons]
    exact congrArg _ ih

/-- An absolute path is encoded the same without its dot segments if it has none, and only then. -/
theorem canonicalUri_removeDots_iff (hpath : path.head? = some '/') :
    Signer.canonicalUri (Uri.removeDotSegments path) = Signer.canonicalUri path ↔
      ∀ s ∈ Uri.segments path, ¬ Uri.IsDot s := by
  have hne : path ≠ [] := by rintro rfl; cases hpath
  have hjoined := Uri.joined_segments hpath
  have hremoved : Uri.removeDotSegments path = Uri.joined (Uri.removeDots [] (Uri.segments path)) := if_neg hne
  rw [hremoved]
  constructor
  · intro h
    have hleft : Uri.joined (Uri.removeDots [] (Uri.segments path)) ≠ [] := by
      have hsegments : Uri.segments path ≠ [] := List.splitOn_ne_nil '/' _
      have hkept := Uri.removeDots_ne_nil [] hsegments
      cases hl : Uri.removeDots [] (Uri.segments path) with
      | nil => exact absurd hl hkept
      | cons s l => simp [Uri.joined]
    rw [Signer.canonicalUri_of_ne_nil hleft, Signer.canonicalUri_of_ne_nil hne] at h
    have hlength := congrArg List.length h
    conv_rhs at hlength => rw [← hjoined]
    rw [encodePath_joined_length, encodePath_joined_length] at hlength
    have dearer : ∀ s, Uri.IsDot s → (Signer.encodePath ('/' :: [])).length <
      (Signer.encodePath ('/' :: s)).length := by
      rintro s (rfl | rfl)
      · decide
      · decide
    have cost := (Uri.removeDots_cost (fun s => (Signer.encodePath ('/' :: s)).length) [] (Uri.segments path) dearer).2
    intro s hs hdot
    have hless := cost ⟨s, hs, hdot⟩
    rw [List.map_nil, List.sum_nil, Nat.zero_add] at hless
    exact hless.ne hlength
  · intro h
    rw [Uri.removeDots_eq h, List.reverse_nil, List.nil_append, hjoined]

theorem pathForRequest_head (b : EndpointBuilder) (bucket key : Text) :
    (b.pathForRequest bucket key).head? = some '/' := by
  unfold EndpointBuilder.pathForRequest
  split <;> rfl

/-! ## The URL -/

theorem baseHost_delimiters (h : EndpointBuilder.fromConfig cfg = .ok b) : ∀ c ∈ b.baseHost, c ∉ ['/', '?', '#'] := by
  unfold EndpointBuilder.fromConfig at h
  split at h
  · cases h
  · obtain ⟨⟨scheme, rest⟩, hscheme, h⟩ := Loop.bind_ok.1 h
    dsimp only at h
    split at h
    · cases h
    · split at h
      · cases h
      · split at h
        · cases h
        · rename_i hdelimiters
          obtain ⟨_, -, h⟩ := Loop.bind_ok.1 h
          cases h
          simp only [not_or] at hdelimiters
          obtain ⟨hslash, hquestion, hhash⟩ := hdelimiters
          intro c hc hmem
          simp only [List.mem_cons, List.not_mem_nil, or_false] at hmem
          rcases hmem with rfl | rfl | rfl
          · exact hslash hc
          · exact hquestion hc
          · exact hhash hc

/-- A URL is a scheme, the host and the path. -/
theorem objectUrl_eq (h : EndpointBuilder.fromConfig cfg = .ok b) :
    ∃ scheme, (scheme = "https".toList ∨ scheme = "http".toList) ∧ ∀ bucket key, b.objectUrl bucket key =
      scheme ++ "://".toList ++ (b.hostHeader bucket ++ b.pathForRequest bucket key) := by
  obtain ⟨scheme, rest, hsplit, hbase, -⟩ := fromConfig_ok h
  have hscheme := (splitScheme_ok hsplit).1
  refine ⟨scheme, hscheme, fun bucket key => ?_⟩
  unfold EndpointBuilder.objectUrl EndpointBuilder.hostHeader EndpointBuilder.pathForRequest
  cases b.style with
  | virtualHosted =>
    have hb : b.scheme = scheme := by
      rw [EndpointBuilder.scheme, hbase, splitOnce_scheme hscheme]
      rfl
    simp only [hb, List.append_assoc]
  | pathStyle => simp only [hbase, List.append_assoc]

/-- What a URL parser reads off a host and an absolute path. -/
theorem parse_host_path (hscheme : scheme = "https".toList ∨ scheme = "http".toList) (hpath : path.head? = some '/') :
    let uri := Uri.parse (scheme ++ "://".toList ++ (host ++ path))
    (Signer.canonicalUri (Uri.removeDotSegments uri.path) = Signer.canonicalUri path ∧ uri.query = none ∧
      uri.fragment = none ∧ uri.authority = some host) ↔
      (∀ c ∈ host, c ∉ ['/', '?', '#']) ∧ (∀ c ∈ path, c ∉ ['?', '#']) ∧ ∀ s ∈ Uri.segments path, ¬ Uri.IsDot s := by
  have hne : scheme ≠ [] := by rcases hscheme with rfl | rfl <;> decide
  have hplain : ∀ c ∈ scheme, c ∉ [':', '/', '?', '#'] := by rcases hscheme with rfl | rfl <;> simp
  rw [Uri.parse_authority hne hplain]
  dsimp only
  have hend : ∀ c ∈ path.head?, c ∈ ['/', '?', '#'] := by
    rw [hpath]
    intro c hc
    cases hc
    decide
  by_cases hhost : ∀ c ∈ host, c ∉ ['/', '?', '#']
  · rw [Uri.upTo_append hhost hend]
    dsimp only
    by_cases hdelimiters : ∀ c ∈ path, c ∉ ['?', '#']
    · have hall : Uri.upTo ['?', '#'] path = (path, []) := by
        have := Uri.upTo_append (t := []) hdelimiters fun c hc => by cases hc
        rwa [List.append_nil] at this
      rw [hall]
      have hquery : Uri.behind ['?'] [] = none := rfl
      have hfragment : Uri.behind ['#'] [] = none := rfl
      simp only [hquery, Option.map_none, Option.getD_none, hfragment, canonicalUri_removeDots_iff hpath, and_true]
      exact ⟨fun h => ⟨hhost, hdelimiters, h⟩, fun h => h.2.2⟩
    · refine iff_of_false (fun h => ?_) fun h => hdelimiters h.2.1
      obtain ⟨-, hquery, hfragment, -⟩ := h
      rw [Option.map_eq_none_iff] at hquery
      rw [hquery] at hfragment
      have hparts := Uri.upTo_fst_append ['?', '#'] path
      have hfirst := Uri.head_upTo ['?', '#'] path
      generalize (Uri.upTo ['?', '#'] path).2 = rest at *
      cases rest with
      | nil =>
        rw [List.append_nil] at hparts
        exact hdelimiters (hparts ▸ Uri.notMem_upTo _ _)
      | cons c rest =>
        -- what follows the path begins a query or a fragment
        have hc := hfirst c rfl
        simp only [List.mem_cons, List.not_mem_nil, or_false] at hc
        rcases hc with rfl | rfl
        · cases hquery
        · cases hfragment
  · refine iff_of_false (fun h => hhost ?_) fun h => hhost h.1
    rw [← Option.some.inj h.2.2.2]
    exact Uri.notMem_upTo _ _

theorem hostHeader_delimiters (h : EndpointBuilder.fromConfig cfg = .ok b) :
    (∀ c ∈ b.hostHeader bucket, c ∉ ['/', '?', '#']) ↔
      (b.style = .virtualHosted → '/' ∉ bucket ∧ '?' ∉ bucket ∧ '#' ∉ bucket) := by
  have hbase := baseHost_delimiters h
  unfold EndpointBuilder.hostHeader
  cases b.style with
  | pathStyle => exact iff_of_true hbase fun h => by cases h
  | virtualHosted =>
    simp only [forall_const]
    constructor
    · intro hall
      have outside : ∀ c ∈ ['/', '?', '#'], c ∉ bucket := fun c hc hmem => hall c (by simp [hmem]) hc
      exact ⟨outside '/' (by simp), outside '?' (by simp), outside '#' (by simp)⟩
    · rintro ⟨hslash, hquestion, hhash⟩ c hc hmem
      rcases List.mem_append.1 hc with hc | hc
      · rcases List.mem_append.1 hc with hc | hc
        · simp only [List.mem_cons, List.not_mem_nil, or_false] at hmem
          rcases hmem with rfl | rfl | rfl
          · exact hslash hc
          · exact hquestion hc
          · exact hhash hc
        · rw [List.mem_singleton.1 hc] at hmem
          exact absurd hmem (by decide)
      · exact hbase c hc hmem

theorem forall_notMem_iff {s : Text} : (∀ c ∈ s, c ∉ ['?', '#']) ↔ '?' ∉ s ∧ '#' ∉ s := by
  constructor
  · intro h
    exact ⟨fun hc => h _ hc (by simp), fun hc => h _ hc (by simp)⟩
  · rintro ⟨hquestion, hhash⟩ c hc hmem
    simp only [List.mem_cons, List.not_mem_nil, or_false] at hmem
    rcases hmem with rfl | rfl
    · exact hquestion hc
    · exact hhash hc

theorem pathForRequest_pathOnly (b : EndpointBuilder) (bucket key : Text) :
    ((∀ c ∈ b.pathForRequest bucket key, c ∉ ['?', '#']) ∧
      ∀ s ∈ Uri.segments (b.pathForRequest bucket key), ¬ Uri.IsDot s) ↔
      PathOnly (Text.trimStart '/' key) ∧ (b.style = .pathStyle → PathOnly bucket) := by
  rw [forall_notMem_iff]
  unfold EndpointBuilder.pathForRequest
  cases b.style with
  | virtualHosted =>
    have hsegments : Uri.segments ("/".toList ++ Text.trimStart '/' key) = (Text.trimStart '/' key).splitOn '/' := rfl
    have hmem : ∀ c, c ≠ '/' → (c ∈ "/".toList ++ Text.trimStart '/' key ↔ c ∈ Text.trimStart '/' key) := fun c hc => by
      simp [hc]
    dsimp only
    rw [hsegments, hmem _ (by decide), hmem _ (by decide)]
    simp only [PathOnly, and_assoc, reduceCtorEq, false_implies, and_true]
  | pathStyle =>
    have hsegments : Uri.segments ("/".toList ++ bucket ++ "/".toList ++ Text.trimStart '/' key) =
        bucket.splitOn '/' ++ (Text.trimStart '/' key).splitOn '/' := by
      rw [← List.splitOn_append_cons_self]
      simp [Uri.segments]
    have hmem : ∀ c, c ≠ '/' → (c ∈ "/".toList ++ bucket ++ "/".toList ++ Text.trimStart '/' key ↔
        c ∈ bucket ∨ c ∈ Text.trimStart '/' key) := fun c hc => by simp [hc]
    dsimp only
    rw [hsegments, hmem _ (by decide), hmem _ (by decide), List.forall_mem_append]
    simp only [PathOnly, not_or, forall_const]
    tauto

/-- The URL of an object is what is signed for it exactly if its key and its bucket are safe. -/
theorem url_agrees_iff_safe (h : EndpointBuilder.fromConfig cfg = .ok b) (signer : Signer) (f : SigningFunctions)
    (now : SigningTime) (method bucket key : Text) (extraHeaders : List NameValue) (body : List UInt8) :
    UrlAgrees (.ofObject b signer f now method bucket key extraHeaders body) (b.pathForRequest bucket key)
      (b.hostHeader bucket) ↔ UrlSafe b.style bucket key := by
  obtain ⟨scheme, hscheme, hurl⟩ := objectUrl_eq h
  have hsent : (SignedRequest.ofObject b signer f now method bucket key extraHeaders body).url =
      scheme ++ "://".toList ++ (b.hostHeader bucket ++ b.pathForRequest bucket key) := hurl bucket key
  have hparts := @parse_host_path scheme (b.hostHeader bucket) _ hscheme (pathForRequest_head b bucket key)
  dsimp only at hparts
  rw [← hsent, hostHeader_delimiters h, pathForRequest_pathOnly] at hparts
  constructor
  · rintro ⟨hpath, hquery, hfragment, hauthority, -⟩
    obtain ⟨hhost, hkey, hbucket⟩ := hparts.1 ⟨hpath, hquery, hfragment, hauthority⟩
    exact ⟨hkey, hhost, hbucket⟩
  · rintro ⟨hkey, hhost, hbucket⟩
    obtain ⟨hpath, hquery, hfragment, hauthority⟩ := hparts.2 ⟨hhost, hkey, hbucket⟩
    exact ⟨hpath, hquery, hfragment, hauthority, rfl⟩

/-- The endpoint of AWS, for the bucket `vaults`. -/
def awsConfig : EndpointConfig :=
  { endpoint := none, region := "us-east-1".toList, bucket := "vaults".toList, forcePathStyle := false }

def awsEndpointBuilder : EndpointBuilder where
  base := "https://s3.us-east-1.amazonaws.com".toList
  baseHost := "s3.us-east-1.amazonaws.com".toList
  style := .virtualHosted

/-- A request for the object `key` of that bucket. -/
def awsRequest (key : String) : SignedRequest :=
  .ofObject awsEndpointBuilder
    { region := "us-east-1".toList, service := "s3".toList, accessKeyId := "AKIA".toList, sessionToken := none }
    { hexSha256 := fun _ => [], signature := fun _ _ => [] } { amzDate := [], dateStamp := [] } "GET".toList
    "vaults".toList key.toList [] []

theorem plain_key_agrees :
    UrlAgrees (awsRequest "team/my vault.kdbx")
      (awsEndpointBuilder.pathForRequest "vaults".toList "team/my vault.kdbx".toList)
      (awsEndpointBuilder.hostHeader "vaults".toList) ↔
      UrlSafe .virtualHosted "vaults".toList "team/my vault.kdbx".toList := by
  have accepted : EndpointBuilder.fromConfig awsConfig = .ok awsEndpointBuilder := by decide +kernel
  exact url_agrees_iff_safe accepted _ _ _ _ _ _ _ _

/-- A question mark in the key: the URL asks for the object `a` with a query, and the signature is for `a%3Fb`. -/
theorem question_mark_disagrees : EndpointBuilder.fromConfig awsConfig = .ok awsEndpointBuilder ∧
    (Uri.parse (awsRequest "a?b").url).path = "/a".toList ∧ (Uri.parse (awsRequest "a?b").url).query = some "b".toList ∧
    Signer.canonicalUri (awsEndpointBuilder.pathForRequest "vaults".toList "a?b".toList) = "/a%3Fb".toList ∧
    ¬ UrlAgrees (awsRequest "a?b") (awsEndpointBuilder.pathForRequest "vaults".toList "a?b".toList)
      (awsEndpointBuilder.hostHeader "vaults".toList) := by
  have query : (Uri.parse (awsRequest "a?b").url).query = some "b".toList := by decide +kernel
  refine ⟨by decide +kernel, by decide +kernel, query, by decide +kernel, fun h => ?_⟩
  rw [h.query] at query
  cases query

end Falach
