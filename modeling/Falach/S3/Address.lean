import Falach.Lib.Loops
import Falach.S3.Endpoint
/-!
# The address of an object

What accepted endpoints look like, and what of an object's URL tells it from others.
-/

namespace Falach

/-- The URL without its scheme, its host in lower case. -/
def address (url : Text) : Text :=
  let rest := ((Text.splitOnce "://".toList url).map Prod.snd).getD url
  Text.lower (rest.takeWhile (· ≠ '/')) ++ rest.dropWhile (· ≠ '/')

variable {cfg : EndpointConfig} {b : EndpointBuilder} {s rest bucket key : Text}

theorem splitScheme_ok {scheme : Text} (h : splitScheme s = .ok (scheme, rest)) :
    (scheme = "https".toList ∨ scheme = "http".toList) ∧ Text.lower s = scheme ++ "://".toList ++ Text.lower rest := by
  unfold splitScheme at h
  split at h
  · cases h
  · rename_i scheme' rest' hsplit
    have hs := Text.splitOnce_eq hsplit
    have hmark : Text.lower "://".toList = "://".toList := by decide
    split at h
    · rename_i hscheme
      cases h
      exact ⟨.inl rfl, by rw [hs, Text.lower_append, Text.lower_append, hscheme, hmark]⟩
    · split at h
      · rename_i hscheme
        cases h
        exact ⟨.inr rfl, by rw [hs, Text.lower_append, Text.lower_append, hscheme, hmark]⟩
      · cases h

/-- A builder comes from a scheme and a host without a slash. -/
theorem fromConfig_ok (h : EndpointBuilder.fromConfig cfg = .ok b) :
    ∃ scheme rest, splitScheme (cfg.endpoint.getD (EndpointBuilder.awsEndpoint cfg.region)) = .ok (scheme, rest) ∧
      b.base = scheme ++ "://".toList ++ b.baseHost ∧ b.baseHost = Text.trimEnd '/' rest ∧ '/' ∉ b.baseHost ∧
      (b.style = .virtualHosted → '.' ∉ cfg.bucket) := by
  unfold EndpointBuilder.fromConfig at h
  split at h
  · cases h
  · obtain ⟨⟨scheme, rest⟩, hscheme, h⟩ := Loop.bind_ok.1 h
    refine ⟨scheme, rest, hscheme, ?_⟩
    dsimp only at h
    split at h
    · cases h
    · split at h
      · cases h
      · split at h
        · cases h
        · rename_i hslash
          obtain ⟨_, -, h⟩ := Loop.bind_ok.1 h
          cases h
          rw [not_or] at hslash
          refine ⟨rfl, rfl, hslash.1, fun hstyle hdot => ?_⟩
          rw [if_pos (.inr (.inl hdot))] at hstyle
          cases hstyle

theorem dot_not_mem_bucket (h : EndpointBuilder.fromConfig cfg = .ok b) (hstyle : b.style = .virtualHosted) :
    '.' ∉ cfg.bucket := by
  obtain ⟨_, _, _, _, _, _, hdot⟩ := fromConfig_ok h
  exact hdot hstyle

/-- The canonical form of an accepted endpoint is its host in lower case. -/
theorem canonicalizeEndpoint_eq {endpoint : Text} (h : EndpointBuilder.fromConfig cfg = .ok b)
    (hendpoint : cfg.endpoint = some endpoint) : canonicalizeEndpoint endpoint = Text.lower b.baseHost := by
  obtain ⟨scheme, rest, hsplit, -, hhost, -⟩ := fromConfig_ok h
  rw [hendpoint, Option.getD_some] at hsplit
  obtain ⟨hscheme, hlower⟩ := splitScheme_ok hsplit
  rw [hhost, Text.lower_trimEnd_slash]
  simp only [canonicalizeEndpoint, hlower]
  rcases hscheme with rfl | rfl
  · rw [List.dropPrefix?_append_of_beq _ (by decide)]
    rfl
  · have hnot : List.dropPrefix? ("http".toList ++ "://".toList ++ Text.lower rest) "https://".toList = none := by
      simp [List.dropPrefix?]
    rw [hnot, List.dropPrefix?_append_of_beq _ (by decide)]
    rfl

/-- What is not in an endpoint is not in its host either. -/
theorem not_mem_baseHost {c : Char} (hlow : c.toLower = c) (hletter : ¬ ('a' ≤ c ∧ c ≤ 'z')) {endpoint : Text}
    (h : EndpointBuilder.fromConfig cfg = .ok b) (hendpoint : cfg.endpoint = some endpoint) (hc : c ∉ endpoint) :
    c ∉ Text.lower b.baseHost := by
  obtain ⟨scheme, rest, hsplit, -, hhost, -⟩ := fromConfig_ok h
  rw [hendpoint, Option.getD_some] at hsplit
  obtain ⟨-, hlower⟩ := splitScheme_ok hsplit
  rw [← Text.mem_lower_iff hlow hletter, hlower, List.mem_append, not_or] at hc
  rw [hhost, Text.lower_trimEnd_slash]
  exact fun hmem => hc.2 ((List.rdropWhile_prefix _ _).subset hmem)

theorem splitOnce_scheme {scheme : Text} (h : scheme = "https".toList ∨ scheme = "http".toList) :
    Text.splitOnce "://".toList (scheme ++ "://".toList ++ rest) = some (scheme, rest) := by
  rcases h with rfl | rfl
  · rfl
  · rfl

/-- The address of a URL whose authority has no slash. -/
theorem address_eq {scheme authority : Text} (path : Text) (hscheme : scheme = "https".toList ∨ scheme = "http".toList)
    (hauthority : '/' ∉ authority) :
    address (scheme ++ "://".toList ++ (authority ++ '/' :: path)) = Text.lower authority ++ '/' :: path := by
  have hne : ∀ c ∈ authority, (decide (c ≠ '/')) = true := fun c hc => by
    have : c ≠ '/' := fun h => hauthority (h ▸ hc)
    simpa using this
  simp only [address, splitOnce_scheme hscheme, Option.map_some, Option.getD_some]
  rw [List.takeWhile_append_of_pos hne, List.dropWhile_append_of_pos hne, List.takeWhile_cons_of_neg (by simp),
    List.dropWhile_cons_of_neg (by simp), List.append_nil]

/-- The address of an object in its parts. -/
theorem address_objectUrl (h : EndpointBuilder.fromConfig cfg = .ok b) (hbucket : '/' ∉ bucket)
    (hkey : key.head? ≠ some '/') : address (b.objectUrl bucket key) = match b.style with
      | .virtualHosted => Text.lower bucket ++ '.' :: (Text.lower b.baseHost ++ '/' :: key)
      | .pathStyle => Text.lower b.baseHost ++ '/' :: (bucket ++ '/' :: key) := by
  obtain ⟨scheme, rest, hsplit, hbase, -, hslash, -⟩ := fromConfig_ok h
  have hscheme := (splitScheme_ok hsplit).1
  have hpath : Text.trimStart '/' key = key := by
    cases key with
    | nil => rfl
    | cons c key => exact List.dropWhile_cons_of_neg (by simpa using hkey)
  unfold EndpointBuilder.objectUrl
  rw [hpath]
  cases hstyle : b.style with
  | virtualHosted =>
    have hb : b.scheme = scheme := by
      rw [EndpointBuilder.scheme, hbase, splitOnce_scheme hscheme]
      rfl
    have hauthority : '/' ∉ bucket ++ '.' :: b.baseHost := by simp [hbucket, hslash]
    have heq := address_eq key hscheme hauthority
    have hdot : Text.lower (bucket ++ '.' :: b.baseHost) = Text.lower bucket ++ '.' :: Text.lower b.baseHost := by
      rw [Text.lower_append]
      rfl
    rw [hdot] at heq
    simpa [hb] using heq
  | pathStyle =>
    have heq := address_eq (bucket ++ '/' :: key) hscheme hslash
    simpa [hbase] using heq

end Falach
