import Falach.Lib.Percent
import Falach.S3.Endpoint
import Mathlib.Data.Char
import Mathlib.Data.List.Lex
import Mathlib.Data.List.Perm.Basic
import Mathlib.Data.List.Sort
import Mathlib.Data.Prod.Lex
/-!
# SigV4 canonical requests

The canonical request of a SigV4 signature, and the signing of a request as far as it is put together from text: the
hashes are given.
-/

namespace Falach

open Percent

/-- A header or a query parameter. -/
abbrev NameValue := Text × Text

/-- `percent_encode` of the signer. -/
def Signer.percentEncode (s : Text) : Text := Text.ofAscii (encode unreserved s.utf8)

namespace Signer

def slash : UInt8 := 0x2F

/-- The bytes that `canonical_uri` keeps: a percent sign may begin an escape that is there already. -/
def keptInUri (b : UInt8) : Bool := unreserved b || b == slash || b == Percent.sign

/-- The bytes of a path, encoded. -/
def encodePath (path : Text) : Text := Text.ofAscii (encode keptInUri path.utf8)

def canonicalUri (path : Text) : Text := if path = [] then ['/'] else encodePath path

/-- A parameter in a query string. -/
def parameter (p : NameValue) : Text := p.1 ++ '=' :: p.2

def canonicalQueryString (query : List NameValue) : Text :=
  let encoded := query.map fun p => (percentEncode p.1, percentEncode p.2)
  ['&'].intercalate ((encoded.insertionSort fun p q => toLex p ≤ toLex q).map parameter)

/-- The loop of `normalize_header_value`; `space` if a blank was put out last. -/
def collapse (space : Bool) : Text → Text
  | [] => []
  | c :: s => if c = ' ' ∨ c = '\t' then (if space then collapse true s else ' ' :: collapse true s)
      else c :: collapse false s

def normalizeHeaderValue (value : Text) : Text := collapse false value.trim

def normalizeHeader (h : NameValue) : NameValue := (h.1.trim.lower, normalizeHeaderValue h.2)

/-- A value joins the values that its name has already. -/
def addValue (h : NameValue) : List (Text × List Text) → List (Text × List Text)
  | [] => [(h.1, [h.2])]
  | g :: grouped => if g.1 = h.1 then (g.1, g.2 ++ [h.2]) :: grouped else g :: addValue h grouped

def groupHeaders (normalized : List NameValue) : List (Text × List Text) :=
  normalized.foldl (fun grouped h => addValue h grouped) []

def headerLine (h : NameValue) : Text := h.1 ++ ':' :: h.2 ++ ['\n']

def canonicalHeadersAndSigned (headers : List NameValue) : Text × Text :=
  let grouped := (groupHeaders (headers.map normalizeHeader)).insertionSort fun a b => a.1 ≤ b.1
  (grouped.flatMap fun g => headerLine (g.1, [','].intercalate g.2), [';'].intercalate (grouped.map Prod.fst))

/-- The lines of the canonical request, and the names of the signed headers. -/
def buildCanonicalRequest (method path : Text) (query headers : List NameValue) (payloadHash : Text) : Text × Text :=
  let (canonicalHeaders, signedHeaders) := canonicalHeadersAndSigned headers
  (['\n'].intercalate
    [method.map Char.toUpper, canonicalUri path, canonicalQueryString query, canonicalHeaders, signedHeaders,
      payloadHash],
    signedHeaders)

end Signer

/-- What a signature is computed with: SHA-256 and HMAC-SHA256 keyed by a signing key for a day, both in hexadecimal. -/
structure SigningFunctions where
  hexSha256 : List UInt8 → Text
  signature : (dateStamp stringToSign : Text) → Text

/-- The time of a signature, as `x-amz-date` and as the day in the scope. -/
structure SigningTime where
  amzDate : Text
  dateStamp : Text

/-- `Signer`, with the credentials it signs for. -/
structure Signer where
  region : Text
  service : Text
  accessKeyId : Text
  sessionToken : Option Text

namespace Signer

/-- `Signer::sign`: the headers of the request with the ones of the signer behind them. -/
def sign (signer : Signer) (f : SigningFunctions) (method path : Text) (query headers : List NameValue)
    (body : List UInt8) (now : SigningTime) : List NameValue :=
  let payloadHash := f.hexSha256 body
  let headers := headers ++ [("x-amz-date".toList, now.amzDate), ("x-amz-content-sha256".toList, payloadHash)] ++
    (signer.sessionToken.map fun token => ("x-amz-security-token".toList, token)).toList
  let scope := ['/'].intercalate [now.dateStamp, signer.region, signer.service, "aws4_request".toList]
  let (canonicalRequest, signedHeaders) := buildCanonicalRequest method path query headers payloadHash
  let stringToSign := ['\n'].intercalate
    ["AWS4-HMAC-SHA256".toList, now.amzDate, scope, f.hexSha256 canonicalRequest.utf8]
  let authorization := "AWS4-HMAC-SHA256 Credential=".toList ++ signer.accessKeyId ++ '/' :: scope ++
    ", SignedHeaders=".toList ++ signedHeaders ++ ", Signature=".toList ++ f.signature now.dateStamp stringToSign
  headers ++ [("authorization".toList, authorization)]

variable {s t path : Text} {query query' headers headers' : List NameValue} {b : UInt8}

/-! ## Percent-encoding -/

theorem utf8_percentEncode (s : Text) : (percentEncode s).utf8 = encode unreserved s.utf8 := utf8_encodeText s

theorem percentEncode_injective : Function.Injective percentEncode := by
  intro s t h
  have hbytes := congrArg Text.utf8 h
  rw [utf8_percentEncode, utf8_percentEncode] at hbytes
  exact Text.utf8_injective (encode_injective (by decide) hbytes)

/-- The characters of an encoding are unreserved, or percent signs. -/
theorem mem_percentEncode {c : Char} (h : c ∈ percentEncode s) :
    ∃ b : UInt8, c = Char.ofNat b.toNat ∧ (b = Percent.sign ∨ unreserved b = true) := by
  obtain ⟨b, hb, rfl⟩ := List.mem_map.1 h
  refine ⟨b, rfl, ?_⟩
  rcases mem_encode hb with h | h | h
  · exact .inr h
  · exact .inl h
  · exact .inr h

theorem notMem_percentEncode {c : Char} (hc : c = '=' ∨ c = '&' ∨ c = '/' ∨ c = '?' ∨ c = '#') :
    c ∉ percentEncode s := by
  intro h
  obtain ⟨b, rfl, hb⟩ := mem_percentEncode h
  revert hb hc
  refine forall_byte (P := fun b => b = Percent.sign ∨ unreserved b = true → ¬ (Char.ofNat b.toNat = '=' ∨
    Char.ofNat b.toNat = '&' ∨ Char.ofNat b.toNat = '/' ∨ Char.ofNat b.toNat = '?' ∨ Char.ofNat b.toNat = '#')) ?_ b
  decide +kernel

/-! ## The path -/

theorem encodePath_append : encodePath (s ++ t) = encodePath s ++ encodePath t := by
  simp only [encodePath, Text.utf8_append, encode_append, Text.ofAscii_append]

theorem keptInUri_lt (h : keptInUri b = true) : b.toNat < 128 := by
  revert h
  refine forall_byte (P := fun b => keptInUri b = true → b.toNat < 128) ?_ b
  decide +kernel

theorem utf8_encodePath (s : Text) : (encodePath s).utf8 = encode keptInUri s.utf8 :=
  Text.utf8_ofAscii (encode_lt fun _ => keptInUri_lt)

theorem encodePath_encodePath (s : Text) : encodePath (encodePath s) = encodePath s := by
  have kept : encode keptInUri (encode keptInUri s.utf8) = encode keptInUri s.utf8 := by
    refine encode_eq_self fun b hb => ?_
    rcases mem_encode hb with h | rfl | h
    · exact h
    · decide
    · simp [keptInUri, h]
  rw [encodePath, utf8_encodePath, kept, encodePath]

theorem encodePath_eq_nil : encodePath s = [] ↔ s = [] := by
  constructor
  · intro h
    have hbytes := congrArg Text.utf8 h
    rw [utf8_encodePath, Text.utf8_nil] at hbytes
    cases hs : s.utf8 with
    | nil => exact Text.utf8_injective (hs.trans Text.utf8_nil.symm)
    | cons b bytes =>
      rw [hs, encode_cons] at hbytes
      have hpos : 0 < (encodeByte keptInUri b).length := length_encodeByte_pos
      rw [(List.append_eq_nil_iff.1 hbytes).1] at hpos
      cases hpos
  · rintro rfl; rfl

theorem canonicalUri_canonicalUri (path : Text) : canonicalUri (canonicalUri path) = canonicalUri path := by
  unfold canonicalUri
  split
  · rfl
  · rename_i h
    rw [if_neg fun hnil => h (encodePath_eq_nil.1 hnil), encodePath_encodePath]

theorem canonicalUri_of_ne_nil (h : s ≠ []) : canonicalUri s = encodePath s := if_neg h

/-- ASCII characters that are kept stand as they are. -/
theorem encodePath_ofAscii {bytes : List UInt8} (h : ∀ b ∈ bytes, keptInUri b = true) :
    encodePath (Text.ofAscii bytes) = Text.ofAscii bytes := by
  rw [encodePath, Text.utf8_ofAscii fun b hb => keptInUri_lt (h b hb), encode_eq_self h]

/-! ## The query -/

theorem parameter_inj {p q : NameValue} (hp : '=' ∉ p.1) (hq : '=' ∉ q.1) (h : parameter p = parameter q) : p = q := by
  obtain ⟨hname, hvalue⟩ := (Text.parts_eq_iff hp hq).1 h
  exact Prod.ext hname hvalue

theorem map_parameter_inj {l l' : List NameValue} (hl : ∀ p ∈ l, '=' ∉ p.1) (hl' : ∀ p ∈ l', '=' ∉ p.1)
    (h : l.map parameter = l'.map parameter) : l = l' := by
  induction l generalizing l' with
  | nil => exact (List.map_eq_nil_iff.1 h.symm).symm
  | cons p l ih =>
    cases l' with
    | nil => cases h
    | cons q l' =>
      obtain ⟨hpq, hrest⟩ := List.cons.inj h
      obtain ⟨hp, hl⟩ := List.forall_mem_cons.1 hl
      obtain ⟨hq, hl'⟩ := List.forall_mem_cons.1 hl'
      rw [parameter_inj hp hq hpq, ih hl hl' hrest]

/-- Sorting forgets the order, and nothing else. -/
theorem insertionSort_eq_iff {α : Type} [LinearOrder α] {l l' : List α} :
    l.insertionSort (· ≤ ·) = l'.insertionSort (· ≤ ·) ↔ l.Perm l' := by
  constructor
  · intro h
    exact (List.perm_insertionSort (· ≤ ·) l).symm.trans (h ▸ List.perm_insertionSort (· ≤ ·) l')
  · intro h
    exact (((List.perm_insertionSort (· ≤ ·) l).trans h).trans
      (List.perm_insertionSort (· ≤ ·) l').symm).eq_of_pairwise'
      (List.pairwise_insertionSort (· ≤ ·) l) (List.pairwise_insertionSort (· ≤ ·) l')

/-- Joined parameters can be told apart again, as no part contains a separator. -/
theorem joined_inj {l l' : List NameValue} (hl : ∀ p ∈ l, '=' ∉ p.1 ∧ '&' ∉ parameter p)
    (hl' : ∀ p ∈ l', '=' ∉ p.1 ∧ '&' ∉ parameter p)
    (h : ['&'].intercalate (l.map parameter) = ['&'].intercalate (l'.map parameter)) : l = l' := by
  -- a parameter is never empty, so neither is a query with one
  have shorter : ∀ {l l' : List NameValue}, (∀ p ∈ l', '=' ∉ p.1 ∧ '&' ∉ parameter p) → l = [] →
      ['&'].intercalate (l.map parameter) = ['&'].intercalate (l'.map parameter) → l' = [] := by
    rintro l l' hl' rfl h
    by_contra hne
    have hsplit : (['&'].intercalate (l'.map parameter)).splitOn '&' = l'.map parameter :=
      List.splitOn_intercalate '&' (List.forall_mem_map.2 fun p hp => (hl' p hp).2) (by simpa using hne)
    rw [← h] at hsplit
    cases l' with
    | nil => exact hne rfl
    | cons p l' =>
      rw [List.map_cons] at hsplit
      have hp : [] = parameter p := (List.cons.inj hsplit).1
      simp [parameter] at hp
  by_cases hnil : l = []
  · rw [hnil, shorter hl' hnil h]
  · have hnil' : l' ≠ [] := fun hnil' => hnil (shorter hl hnil' h.symm)
    have hsplit := congrArg (List.splitOn '&') h
    rw [List.splitOn_intercalate '&' (List.forall_mem_map.2 fun p hp => (hl p hp).2) (by simpa using hnil),
      List.splitOn_intercalate '&' (List.forall_mem_map.2 fun p hp => (hl' p hp).2) (by simpa using hnil')] at hsplit
    exact map_parameter_inj (fun p hp => (hl p hp).1) (fun p hp => (hl' p hp).1) hsplit

theorem encoded_separators {p : NameValue}
    (hp : p ∈ (query.map fun p => (percentEncode p.1, percentEncode p.2)).insertionSort fun p q => toLex p ≤ toLex q) :
    '=' ∉ p.1 ∧ '&' ∉ parameter p := by
  obtain ⟨q, -, rfl⟩ := List.mem_map.1 ((List.mem_insertionSort _).1 hp)
  refine ⟨notMem_percentEncode (.inl rfl), fun h => ?_⟩
  rcases List.mem_append.1 h with h | h
  · exact notMem_percentEncode (.inr (.inl rfl)) h
  · rcases List.mem_cons.1 h with h | h
    · exact absurd h (by decide)
    · exact notMem_percentEncode (.inr (.inl rfl)) h

/-- The canonical query tells parameters apart up to their order. -/
theorem canonicalQueryString_eq_iff : canonicalQueryString query = canonicalQueryString query' ↔ query.Perm query' := by
  have encode_inj : Function.Injective fun p : NameValue => (percentEncode p.1, percentEncode p.2) := by
    intro p q h
    obtain ⟨hname, hvalue⟩ := Prod.mk.inj h
    exact Prod.ext (percentEncode_injective hname) (percentEncode_injective hvalue)
  rw [← List.map_perm_map_iff encode_inj]
  refine Iff.trans ?_ (insertionSort_eq_iff (α := Text ×ₗ Text))
  constructor
  · exact joined_inj (fun p hp => encoded_separators hp) (fun p hp => encoded_separators hp)
  · exact fun h => congrArg (fun l : List NameValue => ['&'].intercalate (l.map parameter)) h

/-! ## The headers -/

/-- The values given for a name, in their order. -/
def valuesOf (name : Text) (normalized : List NameValue) : List Text :=
  (normalized.filter fun h => h.1 = name).map Prod.snd

/-- The groups of some headers: each name once, with its values in their order. -/
structure Groups (normalized : List NameValue) (grouped : List (Text × List Text)) : Prop where
  nodup : (grouped.map Prod.fst).Nodup
  values : ∀ g ∈ grouped, g.2 = valuesOf g.1 normalized
  names : ∀ name, name ∈ grouped.map Prod.fst ↔ name ∈ normalized.map Prod.fst

theorem addValue_names (h : NameValue) (grouped : List (Text × List Text)) :
    (addValue h grouped).map Prod.fst =
      if h.1 ∈ grouped.map Prod.fst then grouped.map Prod.fst else grouped.map Prod.fst ++ [h.1] := by
  induction grouped with
  | nil => rfl
  | cons g grouped ih =>
    unfold addValue
    split
    · rename_i hg
      rw [if_pos (by simp [hg])]
      rfl
    · rename_i hg
      rw [List.map_cons, ih, List.map_cons]
      simp only [List.mem_cons, eq_comm (a := h.1), hg, false_or]
      split <;> rfl

theorem mem_addValue {h : NameValue} {grouped : List (Text × List Text)} {g : Text × List Text}
    (hnodup : (grouped.map Prod.fst).Nodup) (hg : g ∈ addValue h grouped) :
    (g.1 ≠ h.1 ∧ g ∈ grouped) ∨ (∃ vs, (h.1, vs) ∈ grouped ∧ g = (h.1, vs ++ [h.2])) ∨
      (h.1 ∉ grouped.map Prod.fst ∧ g = (h.1, [h.2])) := by
  induction grouped with
  | nil => exact .inr (.inr ⟨List.not_mem_nil, List.mem_singleton.1 hg⟩)
  | cons g' grouped ih =>
    obtain ⟨hnew, hnodup⟩ := List.nodup_cons.1 hnodup
    unfold addValue at hg
    split at hg
    · rename_i heq
      rcases List.mem_cons.1 hg with rfl | hg
      · exact .inr (.inl ⟨g'.2, heq ▸ List.mem_cons_self, Prod.ext heq rfl⟩)
      · refine .inl ⟨fun hsame => hnew ?_, List.mem_cons_of_mem g' hg⟩
        rw [heq, ← hsame]
        exact List.mem_map_of_mem hg
    · rename_i hne
      rcases List.mem_cons.1 hg with rfl | hg
      · exact .inl ⟨hne, List.mem_cons_self⟩
      · rcases ih hnodup hg with ⟨hname, hmem⟩ | ⟨vs, hvs, rfl⟩ | ⟨habsent, rfl⟩
        · exact .inl ⟨hname, List.mem_cons_of_mem g' hmem⟩
        · exact .inr (.inl ⟨vs, List.mem_cons_of_mem g' hvs, rfl⟩)
        · refine .inr (.inr ⟨?_, rfl⟩)
          rw [List.map_cons, List.mem_cons, not_or]
          exact ⟨fun h => hne h.symm, habsent⟩

theorem valuesOf_append (name : Text) (l l' : List NameValue) :
    valuesOf name (l ++ l') = valuesOf name l ++ valuesOf name l' := by
  simp only [valuesOf, List.filter_append, List.map_append]

theorem valuesOf_eq_nil {name : Text} {l : List NameValue} (h : name ∉ l.map Prod.fst) : valuesOf name l = [] := by
  have none_left : (l.filter fun h => h.1 = name) = [] := by
    rw [List.filter_eq_nil_iff]
    intro p hp heq
    exact h (of_decide_eq_true heq ▸ List.mem_map_of_mem hp)
  rw [valuesOf, none_left]
  rfl

theorem Groups.addValue {normalized : List NameValue} {grouped : List (Text × List Text)}
    (hg : Groups normalized grouped)
    (h : NameValue) : Groups (normalized ++ [h]) (Signer.addValue h grouped) := by
  have own : valuesOf h.1 [h] = [h.2] := by simp [valuesOf]
  have other : ∀ {name : Text}, name ≠ h.1 → valuesOf name [h] = [] := fun hne =>
    valuesOf_eq_nil (by simpa using hne)
  refine ⟨?_, fun g hmem => ?_, fun name => ?_⟩
  · rw [addValue_names]
    split
    · exact hg.nodup
    · rename_i habsent
      exact List.nodup_append.2 ⟨hg.nodup, List.nodup_singleton _, by
        rintro a ha b hb rfl
        exact habsent (List.mem_singleton.1 hb ▸ ha)⟩
  · rw [valuesOf_append]
    rcases mem_addValue hg.nodup hmem with ⟨hne, hold⟩ | ⟨vs, hold, rfl⟩ | ⟨habsent, rfl⟩
    · rw [other hne, List.append_nil, hg.values g hold]
    · rw [own, ← hg.values _ hold]
    · rw [own, valuesOf_eq_nil fun hname => habsent ((hg.names h.1).2 hname)]
      rfl
  · rw [addValue_names, List.map_append, List.mem_append, ← hg.names name]
    split
    · rename_i hpresent
      constructor
      · exact .inl
      · rintro (hname | hname)
        · exact hname
        · exact List.mem_singleton.1 hname ▸ hpresent
    · rw [List.mem_append]
      rfl

theorem groupHeaders_groups (normalized : List NameValue) : Groups normalized (groupHeaders normalized) := by
  unfold groupHeaders
  induction normalized using List.reverseRecOn with
  | nil => exact ⟨List.nodup_nil, fun g hg => (by cases hg), fun name => .rfl⟩
  | append_singleton l h ih =>
    rw [List.foldl_append]
    exact ih.addValue h

/-- The lines of the canonical headers: names in ascending order, each with all its values. -/
structure CanonicalLines (headers lines : List NameValue) : Prop where
  ascending : (lines.map Prod.fst).Pairwise (· < ·)
  names : ∀ name, name ∈ lines.map Prod.fst ↔ name ∈ headers.map fun h => (normalizeHeader h).1
  values : ∀ line ∈ lines, line.2 = [','].intercalate (valuesOf line.1 (headers.map normalizeHeader))

theorem canonicalHeadersAndSigned_eq (headers : List NameValue) : ∃ lines, CanonicalLines headers lines ∧
    canonicalHeadersAndSigned headers = (lines.flatMap headerLine, [';'].intercalate (lines.map Prod.fst)) := by
  set grouped := groupHeaders (headers.map normalizeHeader) with hgrouped
  have hgroups : Groups (headers.map normalizeHeader) grouped := groupHeaders_groups _
  set sorted := grouped.insertionSort fun a b => a.1 ≤ b.1 with hsorted
  have hmem : ∀ g, g ∈ sorted ↔ g ∈ grouped := fun g => List.mem_insertionSort _
  have hnames : sorted.map Prod.fst = (grouped.map Prod.fst).insertionSort (· ≤ ·) :=
    List.map_insertionSort _ _ _ _ fun _ _ _ _ => .rfl
  set line : Text × List Text → NameValue := fun g => (g.1, [','].intercalate g.2) with hline
  have hfst : (sorted.map line).map Prod.fst = sorted.map Prod.fst := by
    rw [List.map_map]
    rfl
  refine ⟨sorted.map line, ⟨?_, fun name => ?_, ?_⟩, ?_⟩
  · rw [hfst, hnames]
    have hperm := List.perm_insertionSort (· ≤ ·) (grouped.map Prod.fst)
    have hle := List.pairwise_insertionSort (· ≤ ·) (grouped.map Prod.fst)
    have hne : ((grouped.map Prod.fst).insertionSort (· ≤ ·)).Pairwise (· ≠ ·) := hperm.nodup_iff.2 hgroups.nodup
    exact (hle.and hne).imp fun h => lt_of_le_of_ne h.1 h.2
  · rw [hfst, hnames, List.mem_insertionSort, hgroups.names, List.map_map]
    rfl
  · rw [List.forall_mem_map]
    intro g hg
    exact congrArg [','].intercalate (hgroups.values g ((hmem g).1 hg))
  · rw [hfst, List.flatMap_map]
    rfl

/-- The headers decide their lines. -/
theorem CanonicalLines.unique {lines lines' : List NameValue} (h : CanonicalLines headers lines)
    (h' : CanonicalLines headers' lines')
    (same : ∀ name, valuesOf name (headers.map normalizeHeader) = valuesOf name (headers'.map normalizeHeader)) :
    lines = lines' := by
  have present : ∀ (headers : List NameValue) name, (name ∈ headers.map fun h => (normalizeHeader h).1) ↔
      valuesOf name (headers.map normalizeHeader) ≠ [] := by
    intro headers name
    constructor
    · intro hname
      obtain ⟨p, hp, rfl⟩ := List.mem_map.1 hname
      refine List.ne_nil_of_mem (a := (normalizeHeader p).2) (List.mem_map.2 ⟨normalizeHeader p, ?_, rfl⟩)
      exact List.mem_filter.2 ⟨List.mem_map_of_mem hp, decide_eq_true rfl⟩
    · intro hvalues
      by_contra hname
      refine hvalues (valuesOf_eq_nil ?_)
      rw [List.map_map]
      exact hname
  have names : lines.map Prod.fst = lines'.map Prod.fst := by
    refine List.Perm.eq_of_pairwise' (r := (· ≤ ·)) (h.ascending.imp le_of_lt) (h'.ascending.imp le_of_lt) ?_
    refine (List.perm_ext_iff_of_nodup (h.ascending.imp ne_of_lt) (h'.ascending.imp ne_of_lt)).2 fun name => ?_
    rw [h.names, h'.names, present, present, same]
  -- a line is told by its name
  have told : ∀ {headers lines : List NameValue}, CanonicalLines headers lines → lines =
      (lines.map Prod.fst).map fun name => (name, [','].intercalate (valuesOf name (headers.map normalizeHeader))) := by
    intro headers lines h
    rw [List.map_map]
    conv_lhs => rw [← List.map_id lines]
    exact List.map_congr_left fun line hline => Prod.ext rfl (h.values line hline)
  rw [told h, told h', names]
  exact List.map_congr_left fun name _ => by rw [same]

/-- The headers of one name come in the same order in both lists; headers of different names may come in any order. -/
def SameOrder (headers headers' : List NameValue) : Prop :=
  ∀ name, headers.filter (fun h => (normalizeHeader h).1 = name) = headers'.filter fun h => (normalizeHeader h).1 = name

theorem SameOrder.values (h : SameOrder headers headers') (name : Text) :
    valuesOf name (headers.map normalizeHeader) = valuesOf name (headers'.map normalizeHeader) := by
  simp only [valuesOf, List.filter_map]
  exact congrArg (fun l : List NameValue => (l.map normalizeHeader).map Prod.snd) (h name)

theorem canonicalHeadersAndSigned_of_sameOrder (h : SameOrder headers headers') :
    canonicalHeadersAndSigned headers = canonicalHeadersAndSigned headers' := by
  obtain ⟨lines, hlines, heq⟩ := canonicalHeadersAndSigned_eq headers
  obtain ⟨lines', hlines', heq'⟩ := canonicalHeadersAndSigned_eq headers'
  rw [heq, heq', hlines.unique hlines' h.values]

/-! ## The canonical request -/

/-- A percent sign with two hexadecimal digits. -/
def IsEscape (e : Text) : Prop := ∃ high low : Char, Address.isHexDigit high ∧ Address.isHexDigit low ∧
    e = ['%', high, low]

theorem isHexDigit_ascii {c : Char} (h : Address.isHexDigit c = true) : ∃ b : UInt8, unreserved b = true ∧
    [c] = Text.ofAscii [b] := by
  have hlt := Address.isHexDigit_lt h
  have hall : ∀ n < 128, Address.isHexDigit (Char.ofNat n) = true → unreserved (UInt8.ofNat n) = true := by
    decide +kernel
  have hn : (UInt8.ofNat c.toNat).toNat = c.toNat := by
    rw [UInt8.toNat_ofNat']
    exact Nat.mod_eq_of_lt (by omega)
  refine ⟨UInt8.ofNat c.toNat, hall c.toNat hlt (by rwa [Char.ofNat_toNat]), ?_⟩
  change [c] = [Char.ofNat (UInt8.ofNat c.toNat).toNat]
  rw [hn, Char.ofNat_toNat]

theorem encodePath_escape {e : Text} (h : IsEscape e) : encodePath e = e := by
  obtain ⟨high, low, hhigh, hlow, rfl⟩ := h
  obtain ⟨a, ha, hhigh⟩ := isHexDigit_ascii hhigh
  obtain ⟨b, hb, hlow⟩ := isHexDigit_ascii hlow
  have heq : ['%', high, low] = Text.ofAscii [Percent.sign, a, b] := by
    rw [← List.singleton_append (x := high), hhigh, hlow]
    rfl
  rw [heq, encodePath_ofAscii]
  intro x hx
  simp only [List.mem_cons, List.not_mem_nil, or_false] at hx
  rcases hx with rfl | rfl | rfl
  · decide
  · simp [keptInUri, ha]
  · simp [keptInUri, hb]

/-- The parts of a canonical request. The query stands for the parameters up to their order; the header lines stand
for the headers up to the order of different names, each name once and signed; `percent_encode` keeps the unreserved
bytes and tells all strings apart; and a path that is encoded is not encoded again. -/
theorem canonical_request_well_formed :
    (∀ query query', canonicalQueryString query = canonicalQueryString query' ↔ query.Perm query') ∧
    (∀ headers, ∃ lines, CanonicalLines headers lines ∧
      canonicalHeadersAndSigned headers = (lines.flatMap headerLine, [';'].intercalate (lines.map Prod.fst))) ∧
    (∀ headers headers', SameOrder headers headers' →
      canonicalHeadersAndSigned headers = canonicalHeadersAndSigned headers') ∧
    (∀ s, (percentEncode s).utf8 = s.utf8.flatMap fun b => if unreserved b then [b] else escape b) ∧
    Function.Injective percentEncode ∧
    (∀ path, canonicalUri (canonicalUri path) = canonicalUri path) ∧
    (∀ before after, canonicalUri (before ++ '/' :: after) = encodePath before ++ '/' :: encodePath after) ∧
    ∀ before e after, IsEscape e → canonicalUri (before ++ e ++ after) = encodePath before ++ e ++
      encodePath after := by
  refine ⟨fun _ _ => canonicalQueryString_eq_iff, canonicalHeadersAndSigned_eq,
    fun _ _ => canonicalHeadersAndSigned_of_sameOrder, utf8_percentEncode, percentEncode_injective,
    canonicalUri_canonicalUri, fun before after => ?_, fun before e after he => ?_⟩
  · rw [canonicalUri_of_ne_nil (by simp), encodePath_append, ← List.singleton_append, encodePath_append]
    rfl
  · have hne : before ++ e ++ after ≠ [] := by
      obtain ⟨high, low, -, -, rfl⟩ := he
      simp
    rw [canonicalUri_of_ne_nil hne, encodePath_append, encodePath_append, encodePath_escape he]

end Signer

end Falach
