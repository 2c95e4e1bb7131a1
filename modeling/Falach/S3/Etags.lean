import Falach.S3.Client
/-!
# ETags that come back

What a client sends back as `If-Match` for an ETag it was given. `quote_etag` trims the stored tag and takes one in
quotes for quoted already, so a tag with white space or quotes just inside its quotes comes back as another one.
-/

namespace Falach

namespace Etag

variable {raw raw' etag etag' : Text}

/-- The text starts and ends with a quotation mark. -/
def Quoted (s : Text) : Prop := s.head? = some quoteMark ∧ s.getLast? = some quoteMark ∧ 2 ≤ s.length

instance (s : Text) : Decidable (Quoted s) := inferInstanceAs (Decidable (_ ∧ _))

/-- The text between the outer quotes of a header value. -/
def inside (raw : Text) : Text := ((Text.trim raw).drop 1).dropLast

/-- Between its quotes the value neither begins nor ends with white space, nor is it quoted a second time. -/
def Plain (raw : Text) : Prop := Text.trim (inside raw) = inside raw ∧ ¬ Quoted (inside raw)

instance (raw : Text) : Decidable (Plain raw) := inferInstanceAs (Decidable (_ ∧ _))

/-- A value that is accepted is, without the white space around it, the tag in quotes. -/
theorem parse_ok (h : parse raw = .ok etag) : Text.trim raw = toHeaderValue etag ∧ inside raw = etag := by
  simp only [parse] at h
  split at h
  · cases h
  · split at h
    · cases h
    · split at h
      · cases h
      · rename_i hquoted
        split at h
        · cases h
        · obtain rfl := Except.ok.inj h
          refine ⟨?_, rfl⟩
          simp only [not_or, not_not, Nat.not_lt] at hquoted
          obtain ⟨hhead, hlast, hlength⟩ := hquoted
          generalize Text.trim raw = s at hhead hlast hlength
          cases s with
          | nil => cases hhead
          | cons c s =>
            obtain rfl := Option.some.inj hhead
            cases s using List.reverseRecOn with
            | nil => simp at hlength
            | append_singleton s d =>
              rw [← List.cons_append, List.getLast?_concat] at hlast
              obtain rfl := Option.some.inj hlast
              simp [toHeaderValue]

theorem length_trim_le (s : Text) : (Text.trim s).length ≤ s.length :=
  ((List.rdropWhile_prefix _ _).length_le).trans (List.dropWhile_suffix _).length_le

/-- What is sent back for an accepted value. -/
theorem quote_eq_trim_iff (h : parse raw = .ok etag) : quote etag = Text.trim raw ↔ Plain raw := by
  obtain ⟨htrim, hinside⟩ := parse_ok h
  rw [htrim, Plain, hinside]
  have hlength := length_trim_le etag
  unfold quote
  dsimp only
  split
  · rename_i hquoted
    -- taken for quoted already: too short to be what the server sent
    refine iff_of_false (fun heq => ?_) fun ⟨heq, hnot⟩ => hnot (heq ▸ hquoted)
    have hlong := congrArg List.length heq
    simp only [toHeaderValue, List.length_cons, List.length_append, List.length_nil] at hlong
    omega
  · rename_i hquoted
    rw [toHeaderValue_inj]
    exact ⟨fun heq => ⟨heq, fun hq => hquoted (heq.symm ▸ hq)⟩, And.left⟩

end Etag

/-- The ETag header of a response comes back unaltered exactly if it is plain, and no two plain ones are confused. -/
theorem etag_comes_back_iff_plain {response : HttpResponse} {etag : Text} (h : S3Run.parseEtag response = .ok etag) :
    ∃ raw, response.etag = some raw ∧ (Etag.quote etag = Text.trim raw ↔ Etag.Plain raw) ∧
      ∀ response' raw' etag', S3Run.parseEtag response' = .ok etag' → response'.etag = some raw' →
        Etag.Plain raw → Etag.Plain raw' → Etag.quote etag = Etag.quote etag' → Text.trim raw = Text.trim raw' := by
  have accepted : ∀ {response : HttpResponse} {etag : Text}, S3Run.parseEtag response = .ok etag →
      ∃ raw, response.etag = some raw ∧ Etag.parse raw = .ok etag := by
    intro response etag h
    unfold S3Run.parseEtag at h
    cases hraw : response.etag with
    | none => rw [hraw] at h; cases h
    | some raw =>
      rw [hraw] at h
      refine ⟨raw, rfl, ?_⟩
      cases hparse : Etag.parse raw with
      | error e => simp only [hparse, Except.mapError] at h; cases h
      | ok inner => simp only [hparse, Except.mapError] at h; rw [Except.ok.inj h]
  obtain ⟨raw, hraw, hparse⟩ := accepted h
  refine ⟨raw, hraw, Etag.quote_eq_trim_iff hparse, fun response' raw' etag' h' hraw' hplain hplain' heq => ?_⟩
  obtain ⟨raw'', hraw'', hparse'⟩ := accepted h'
  obtain rfl := Option.some.inj (hraw'.symm.trans hraw'')
  rw [← (Etag.quote_eq_trim_iff hparse).2 hplain, ← (Etag.quote_eq_trim_iff hparse').2 hplain', heq]

/-- A response with the ETag header `raw`. -/
def respondsWith (raw : String) : HttpResponse := { status := 200, etag := some raw.toList }

theorem plain_etag_comes_back : ∃ raw, (respondsWith "  \"d41d-2\" ").etag = some raw ∧
    (Etag.quote "d41d-2".toList = Text.trim raw ↔ Etag.Plain raw) := by
  have accepted : S3Run.parseEtag (respondsWith "  \"d41d-2\" ") = .ok "d41d-2".toList := by decide +kernel
  obtain ⟨raw, hraw, hback, -⟩ := etag_comes_back_iff_plain accepted
  exact ⟨raw, hraw, hback⟩

/-- A tag in two pairs of quotes comes back in one, like another tag that the server may have. -/
theorem quoted_etag_comes_back_altered : ∃ twice once,
    S3Run.parseEtag (respondsWith "\"\"a\"\"") = .ok twice ∧ S3Run.parseEtag (respondsWith "\"a\"") = .ok once ∧
    Etag.quote twice ≠ Text.trim "\"\"a\"\"".toList ∧
    Etag.quote twice = Etag.quote once ∧ Text.trim "\"\"a\"\"".toList ≠ Text.trim "\"a\"".toList :=
  ⟨"\"a\"".toList, "a".toList, by decide +kernel⟩

end Falach
