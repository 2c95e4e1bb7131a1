import Falach.Entry.Search
import Falach.Entry.Tags
import Falach.Tui.Editing
/-!
# The edit form

The input fields of the form of an entry, how they are filled from the entry, and what is read out of them for a save.
What a form makes of an entry when nothing was typed in it is what filling and reading do not undo of each other.
-/

namespace Falach.Tui

open Keepass Database

/-! ## Input fields -/

/-- `Input::new`. -/
def Input.new (value : String) : Input := ⟨value.toList, value.toList.length⟩

/-- `PasswordInput::with_value`. -/
def PasswordInput.withValue (seed : String) : PasswordInput := ⟨seed.toList, seed.toList.length⟩

/-- `TextArea`: lines and a cursor; the column counts bytes. -/
structure TextArea where
  lines : List Text
  row : Nat
  col : Nat
deriving DecidableEq

namespace TextArea

def fromStr (value : String) : TextArea :=
  let lines := value.toList.splitOn '\n'
  { lines := lines
    row := lines.length - 1
    col := (String.ofList (lines.getLastD [])).utf8ByteSize }

def value (area : TextArea) : String := String.ofList (['\n'].intercalate area.lines)

/-- Notes come back as they went in. -/
theorem value_fromStr (value : String) : (fromStr value).value = value := by
  unfold TextArea.value fromStr
  dsimp only
  rw [List.intercalate_splitOn, String.ofList_toList]

end TextArea

structure CustomRow where
  name : Input
  value : PasswordInput
  «protected» : Bool
deriving DecidableEq

/-! ## The form -/

/-- `EditState`, what is in its input fields. -/
structure EditForm where
  kind : EntryKind
  title : Input
  username : Input
  password : PasswordInput
  url : Input
  totpUri : PasswordInput := {}
  notes : TextArea
  tags : Input
  custom : List CustomRow
  originalCustom : List String

/-- `fields::KNOWN_FIELDS`. -/
def knownFields : List String := [titleField, usernameField, passwordField, urlField, notesField]

/-- `Value::is_protected`. -/
def isProtected : Value String → Bool
  | .«protected» _ => true
  | .unprotected _ => false

/-- `EntryView::kind`. -/
def kindOf (e : Entry) : EntryKind :=
  if (e.fields.lookup EditValues.otpField).isSome then .totp
  else if fieldText e usernameField = "" ∧ fieldText e passwordField = "" ∧ fieldText e urlField = "" then .secureNote
  else .credential

/-- `parse_tags` splits at these. -/
def isTagSeparator (c : Char) : Bool := c = ',' ∨ c = ' ' ∨ c = '\t'

def parseTags (raw : Text) : Except String (List Tag) :=
  ((raw.splitOnP isTagSeparator).filter fun token => token ≠ []).foldlM (fun tags token =>
    match Tag.from (String.ofList token) with
    | .ok tag => .ok (if tag ∈ tags then tags else tags ++ [tag])
    | .error _ => .error ("Invalid tag: " ++ String.ofList token)) []

/-- A name, trimmed. -/
def trimmed (name : String) : String := String.ofList (Text.trim name.toList)

def titleRequired : String := "Title is required."

def reservedName : String := "Custom field name 'otp'/'TOTP' is reserved."

section

variable (lowercase : String → String) (walk : Enumeration String)

/-- `is_otp_field`. -/
def isOtpField (name : String) : Bool :=
  lowercase name = "otp" ∨ "totp".toList <:+: (lowercase name).toList

/-- `EntryView::custom_field_names`. -/
def customFieldNames (e : Entry) : List String :=
  (walk.list e.fields.keys).filter fun name => name ∉ knownFields

/-- The custom fields the form shows. -/
def shownNames (e : Entry) : List String :=
  (customFieldNames walk e).filter fun name => isOtpField lowercase name = false

/-- The row of a custom field. -/
def rowOf (e : Entry) (name : String) : CustomRow where
  name := .new name
  value := .withValue (fieldText e name)
  «protected» := ((e.fields.lookup name).map isProtected).getD false

namespace EditForm

/-- `EditState::from_entry`. -/
def fromEntry (e : Entry) : EditForm where
  kind := kindOf e
  title := .new (fieldText e titleField)
  username := .new (fieldText e usernameField)
  password := .withValue (fieldText e passwordField)
  url := .new (fieldText e urlField)
  notes := .fromStr (fieldText e notesField)
  tags := .new (String.ofList ([' '].intercalate ((tagsFromEntry e.tags).map fun tag => tag.text.toList)))
  custom := (shownNames lowercase walk e).map (rowOf e)
  originalCustom := shownNames lowercase walk e

/-- A row among those before it: of two rows with one name the later one stays. -/
def putRow (custom : List CustomFieldDraft) (row : CustomRow) : List CustomFieldDraft :=
  let name := trimmed (String.ofList row.name.value)
  if name = "" then custom
  else custom.filter (fun f => f.name ≠ name) ++ [⟨name, String.ofList row.value.buffer, row.protected⟩]

/-- The rows of the custom fields, as `snapshot` reads them. -/
def readRows (rows : List CustomRow) : Except String (List CustomFieldDraft) :=
  rows.foldlM (fun custom row =>
    let name := trimmed (String.ofList row.name.value)
    if name ≠ "" ∧ isOtpField lowercase name = true then .error reservedName else .ok (putRow custom row)) []

/-- `EditState::snapshot`. -/
def snapshot (form : EditForm) : Except String EditValues := do
  let title := trimmed (String.ofList form.title.value)
  if title = "" then .error titleRequired
  else
    let tags ← parseTags form.tags.value
    let custom ← readRows lowercase form.custom
    return {
      kind := form.kind
      title := title
      username := String.ofList form.username.value
      password := String.ofList form.password.buffer
      url := String.ofList form.url.value
      totpUri := trimmed (String.ofList form.totpUri.buffer)
      notes := form.notes.value
      tags := tags.map Tag.text
      custom := custom
      removedCustom := form.originalCustom.filter fun orig => orig ∉ custom.map (·.name) }

end EditForm

inductive SaveError where
  | form (message : String)
  | vault (e : VaultError)

/-- Open the form of an entry and save it as it is. -/
def saveUntouched (db : Database) (uuid : Uuid) (now : NaiveDateTime) : Except SaveError Database :=
  match db.entry uuid with
  | none => .error (.vault (.entryNotFound uuid))
  | some e =>
    match (EditForm.fromEntry lowercase walk e).snapshot lowercase with
    | .error message => .error (.form message)
    | .ok values => (updateEntry db uuid (fun v => .ok (applyEdits values.edits v)) now).mapError .vault

end

/-! ## What a save must leave as it was -/

/-- What the form shows of the entry is as it was: the text of every standard field, the tags, every custom field, and
whether a standard field that was there is protected. -/
structure SameContent (e e' : Entry) : Prop where
  texts : ∀ name ∈ knownFields, fieldText e' name = fieldText e name
  tags : e'.tags = e.tags
  custom : ∀ name ∉ knownFields, e'.fields.lookup name = e.fields.lookup name
  flags : ∀ name ∈ knownFields, ∀ v, e.fields.lookup name = some v →
    (e'.fields.lookup name).map isProtected = some (isProtected v)

/-- The standard fields a save of an entry of this kind writes, and which of them it protects. -/
def writtenFields : EntryKind → List (String × Bool)
  | .credential => [(titleField, false), (usernameField, false), (passwordField, true), (urlField, false),
      (notesField, false)]
  | .totp => [(titleField, false), (usernameField, false), (urlField, false), (notesField, false)]
  | .secureNote => [(titleField, false), (notesField, false)]

section

variable (lowercase : String → String)

/-- A custom field the form shows. -/
def IsShown (e : Entry) (name : String) : Prop :=
  name ∈ e.fields ∧ name ∉ knownFields ∧ isOtpField lowercase name = false

/-- The name of a custom field is one of a TOTP secret without the white space around it: such a form is not saved. -/
def HasReservedName (e : Entry) : Prop :=
  ∃ name, IsShown lowercase e name ∧ trimmed name ≠ "" ∧ isOtpField lowercase (trimmed name) = true

/-- What the form can show and give back: a title and names without white space around them, no blank name, tags that
are different, not empty, and without any of the separators, and standard fields protected as a save protects them. -/
structure FormFaithful (e : Entry) : Prop where
  title : trimmed (fieldText e titleField) = fieldText e titleField
  names : ∀ name, IsShown lowercase e name → trimmed name = name ∧ name ≠ ""
  tagTexts : ∀ tag ∈ e.tags, tag ≠ "" ∧ ∀ c ∈ tag.toList, c ≠ ';' ∧ isTagSeparator c = false
  tagsDistinct : e.tags.Nodup
  flags : ∀ p ∈ writtenFields (kindOf e), ∀ v, e.fields.lookup p.1 = some v → isProtected v = p.2

end

/-! ## Reading the fields -/

theorem trim_trim (s : Text) : s.trim.trim = s.trim := by
  unfold Text.trim
  set t := s.dropWhile Text.isWhitespace with ht
  have hfirst : (t.rdropWhile Text.isWhitespace).dropWhile Text.isWhitespace = t.rdropWhile Text.isWhitespace := by
    rw [List.dropWhile_eq_self_iff]
    intro hl
    -- what is left of the end begins as the whole does
    have hpre : t.rdropWhile Text.isWhitespace <+: t := List.rdropWhile_prefix _ t
    have hlt : 0 < t.length := hl.trans_le hpre.length_le
    have hhead : (t.rdropWhile Text.isWhitespace)[0] = t[0] := hpre.getElem hl
    have hself : t.dropWhile Text.isWhitespace = t := List.dropWhile_idempotent _ s
    rw [hhead]
    exact List.dropWhile_eq_self_iff.1 hself hlt
  rw [hfirst, List.rdropWhile_idempotent]

theorem trimmed_trimmed (name : String) : trimmed (trimmed name) = trimmed name := by
  unfold trimmed
  rw [String.toList_ofList, trim_trim]

/-! The tokens of a text. -/

def tokens (raw : Text) : List Text := (raw.splitOnP isTagSeparator).filter fun token => token ≠ []

theorem mem_tokens {raw token : Text} (h : token ∈ tokens raw) :
    token ≠ [] ∧ (∀ c ∈ token, isTagSeparator c = false) ∧ token ⊆ raw := by
  obtain ⟨hmem, hne⟩ := List.mem_filter.1 h
  obtain ⟨hsep, hsub⟩ := Text.mem_splitOnP _ raw token hmem
  exact ⟨of_decide_eq_true hne, hsep, hsub⟩

theorem from_token (tag : Tag) : Tag.from (String.ofList tag.text.toList) = .ok tag := by
  rw [String.ofList_toList, from_text]

/-- Tokens that are tags are parsed to these, each where it comes first. -/
theorem parseTags_eq {raw : Text} {all : List Tag} (h : tokens raw = all.map fun tag => tag.text.toList) :
    parseTags raw = .ok (distinct all) := by
  have parse : ∀ kept : List Tag, (all.map fun tag => tag.text.toList).foldlM (fun tags token =>
      match Tag.from (String.ofList token) with
      | .ok tag => .ok (if tag ∈ tags then tags else tags ++ [tag])
      | .error _ => .error ("Invalid tag: " ++ String.ofList token)) kept =
      (.ok (all.foldl (fun kept tag => if tag ∈ kept then kept else kept ++ [tag]) kept) : Except String
        (List Tag)) := by
    clear h
    induction all with
    | nil => intro kept; rfl
    | cons tag all ih =>
      intro kept
      rw [List.map_cons, List.foldlM_cons, List.foldl_cons, from_token]
      exact ih _
  unfold parseTags
  change (tokens raw).foldlM _ [] = _
  rw [h]
  exact parse []

theorem distinct_spec (tags : List Tag) : (distinct tags).Nodup ∧ distinct tags ⊆ tags := by
  have keep : ∀ kept rest : List Tag, kept.Nodup →
      (rest.foldl (fun kept tag => if tag ∈ kept then kept else kept ++ [tag]) kept).Nodup ∧
      rest.foldl (fun kept tag => if tag ∈ kept then kept else kept ++ [tag]) kept ⊆ kept ++ rest := by
    intro kept rest
    induction rest generalizing kept with
    | nil => intro hn; exact ⟨hn, by rw [List.append_nil]; exact List.Subset.refl _⟩
    | cons tag rest ih =>
      intro hn
      rw [List.foldl_cons]
      split
      · obtain ⟨hn', hsub⟩ := ih kept hn
        refine ⟨hn', fun x hx => ?_⟩
        rw [List.mem_append]
        exact (List.mem_append.1 (hsub hx)).imp_right (List.mem_cons_of_mem tag)
      · rename_i hnew
        obtain ⟨hn', hsub⟩ := ih (kept ++ [tag]) (by simpa using hn.concat hnew)
        exact ⟨hn', fun x hx => by simpa using hsub hx⟩
  simpa [distinct] using keep [] tags List.nodup_nil

/-- The tags of an entry, joined and parsed, are its tags if they are different, none is empty and none has a
separator in it. -/
theorem parseTags_joined (texts : List String) : ∃ tags,
    parseTags ([' '].intercalate ((tagsFromEntry texts).map fun tag => tag.text.toList)) = .ok tags ∧ tags.Nodup ∧
    (tags.map Tag.text = texts ↔
      (∀ tag ∈ texts, tag ≠ "" ∧ ∀ c ∈ tag.toList, c ≠ ';' ∧ isTagSeparator c = false) ∧ texts.Nodup) := by
  set raw : Text := [' '].intercalate ((tagsFromEntry texts).map fun tag => tag.text.toList) with hraw
  have hvalid : ∀ token ∈ tokens raw, ';' ∉ token := by
    intro token htoken hsemi
    rcases Text.mem_intercalate ((mem_tokens htoken).2.2 hsemi) with h | ⟨p, hp, h⟩
    · exact absurd h (by decide)
    · obtain ⟨tag, -, rfl⟩ := List.mem_map.1 hp
      exact tag.valid h
  obtain ⟨all, hall⟩ : ∃ all : List Tag, tokens raw = all.map fun tag => tag.text.toList := by
    refine ⟨(tokens raw).pmap (fun token h => ⟨String.ofList token, by rw [String.toList_ofList]; exact h⟩) hvalid, ?_⟩
    rw [List.map_pmap]
    simp
  refine ⟨distinct all, parseTags_eq hall, (distinct_spec all).1, ?_, ?_⟩
  · rintro rfl
    refine ⟨fun text htext => ?_, (distinct_spec all).1.map text_injective⟩
    obtain ⟨tag, htag, rfl⟩ := List.mem_map.1 htext
    have htoken : tag.text.toList ∈ tokens raw := by
      rw [hall]
      exact List.mem_map_of_mem ((distinct_spec all).2 htag)
    obtain ⟨hne, hsep, -⟩ := mem_tokens htoken
    refine ⟨fun h => hne (by rw [h]; rfl), fun c hc => ⟨fun h => tag.valid (h ▸ hc), hsep c hc⟩⟩
  · rintro ⟨hclean, hn⟩
    have htags : (tagsFromEntry texts).map Tag.text = texts :=
      ((tagsFromEntry_eq_iff fun s hs hsemi => ((hclean s hs).2 _ hsemi).1 rfl).1 rfl).symm
    set tags := tagsFromEntry texts
    have hpart : ∀ tag ∈ tags, tag.text ≠ "" ∧ ∀ c ∈ tag.text.toList, isTagSeparator c = false := by
      intro tag htag
      have h := hclean tag.text (htags ▸ List.mem_map_of_mem htag)
      exact ⟨h.1, fun c hc => (h.2 c hc).2⟩
    have htokens : tokens raw = tags.map fun tag => tag.text.toList := by
      -- only spaces separate here, and they are not in the tags
      have hspaces : raw.splitOnP isTagSeparator = raw.splitOn ' ' := by
        refine Text.splitOnP_congr fun x hx => ?_
        rcases Text.mem_intercalate hx with h | ⟨p, hp, h⟩
        · obtain rfl := List.mem_singleton.1 h
          rfl
        · obtain ⟨tag, htag, rfl⟩ := List.mem_map.1 hp
          have hx := (hpart tag htag).2 x h
          rw [hx, eq_comm, beq_eq_false_iff_ne]
          rintro rfl
          exact absurd hx (by decide)
      unfold tokens
      rw [hspaces, hraw]
      by_cases hnil : tags = []
      · rw [hnil]
        rfl
      · rw [Text.splitOn_intercalate_iff.2 ⟨by simpa using hnil, ?_⟩, List.filter_eq_self]
        · intro p hp
          obtain ⟨tag, htag, rfl⟩ := List.mem_map.1 hp
          have hne := (hpart tag htag).1
          simpa using fun h => hne (String.toList_injective (by rw [h]))
        · intro p hp hspace
          obtain ⟨tag, htag, rfl⟩ := List.mem_map.1 hp
          exact absurd ((hpart tag htag).2 _ hspace) (by decide)
    have hn' : tags.Nodup := (htags ▸ hn).of_map _
    have hsame : all = tags := by
      refine List.map_injective_iff.2 ?_ (hall.symm.trans htokens)
      exact fun a b h => text_injective (String.toList_injective h)
    rw [hsame, distinct_eq hn', htags]

/-! The rows of the custom fields. -/

section

variable {lowercase : String → String}

theorem readRows_eq (lowercase : String → String) (rows : List CustomRow) (custom : List CustomFieldDraft) :
    rows.foldlM (fun custom row =>
      let name := trimmed (String.ofList row.name.value)
      if name ≠ "" ∧ isOtpField lowercase name = true then .error reservedName
        else .ok (EditForm.putRow custom row)) custom =
    if ∃ row ∈ rows, trimmed (String.ofList row.name.value) ≠ "" ∧
        isOtpField lowercase (trimmed (String.ofList row.name.value)) = true then .error reservedName
    else (.ok (rows.foldl EditForm.putRow custom) : Except String (List CustomFieldDraft)) := by
  induction rows generalizing custom with
  | nil => simp
  | cons row rows ih =>
    rw [List.foldlM_cons, List.foldl_cons]
    dsimp only
    by_cases hrow : trimmed (String.ofList row.name.value) ≠ "" ∧
        isOtpField lowercase (trimmed (String.ofList row.name.value)) = true
    · rw [if_pos hrow, if_pos ⟨row, List.mem_cons_self, hrow⟩]
      rfl
    · rw [if_neg hrow]
      change rows.foldlM _ _ = _
      rw [ih]
      refine if_congr ?_ rfl rfl
      constructor
      · rintro ⟨r, hr, h⟩
        exact ⟨r, List.mem_cons_of_mem row hr, h⟩
      · rintro ⟨r, hr, h⟩
        rcases List.mem_cons.1 hr with rfl | hr
        · exact absurd h hrow
        · exact ⟨r, hr, h⟩

theorem mem_putRow {custom : List CustomFieldDraft} {row : CustomRow} {f : CustomFieldDraft}
    (h : f ∈ EditForm.putRow custom row) :
    f ∈ custom ∨ f.name = trimmed (String.ofList row.name.value) ∧ f.name ≠ "" := by
  unfold EditForm.putRow at h
  dsimp only at h
  split at h
  · exact .inl h
  · rename_i hne
    rcases List.mem_append.1 h with h | h
    · exact .inl (List.mem_of_mem_filter h)
    · obtain rfl := List.mem_singleton.1 h
      exact .inr ⟨rfl, hne⟩

/-- Every name that is read is the name of a row, trimmed, and not blank. -/
theorem putRow_names {rows : List CustomRow} {f : CustomFieldDraft} (h : f ∈ rows.foldl EditForm.putRow []) :
    ∃ row ∈ rows, f.name = trimmed (String.ofList row.name.value) ∧ f.name ≠ "" := by
  have keep : ∀ custom : List CustomFieldDraft, f ∈ rows.foldl EditForm.putRow custom → f ∈ custom ∨
      ∃ row ∈ rows, f.name = trimmed (String.ofList row.name.value) ∧ f.name ≠ "" := by
    clear h
    induction rows with
    | nil =>
      intro custom h
      exact .inl h
    | cons row rows ih =>
      intro custom h
      rw [List.foldl_cons] at h
      rcases ih _ h with h | ⟨r, hr, h⟩
      · refine (mem_putRow h).imp_right fun hname => ?_
        exact ⟨row, List.mem_cons_self, hname⟩
      · exact .inr ⟨r, List.mem_cons_of_mem row hr, h⟩
  exact (keep [] h).resolve_left List.not_mem_nil

/-- Rows with different names that stay as they are when trimmed are read as they are. -/
theorem putRow_clean (e : Entry) {names : List String} (hn : names.Nodup)
    (hclean : ∀ name ∈ names, trimmed name = name ∧ name ≠ "") :
    (names.map (rowOf e)).foldl EditForm.putRow [] = names.map fun name =>
      ⟨name, fieldText e name, ((e.fields.lookup name).map isProtected).getD false⟩ := by
  have keep : ∀ custom : List CustomFieldDraft, (∀ f ∈ custom, f.name ∉ names) →
      (names.map (rowOf e)).foldl EditForm.putRow custom = custom ++ names.map fun name =>
        ⟨name, fieldText e name, ((e.fields.lookup name).map isProtected).getD false⟩ := by
    induction names with
    | nil => intro custom _; rw [List.map_nil, List.map_nil, List.append_nil]; rfl
    | cons name names ih =>
      intro custom hnew
      obtain ⟨hnot, hn⟩ := List.nodup_cons.1 hn
      obtain ⟨htrim, hne⟩ := hclean name List.mem_cons_self
      have hput : EditForm.putRow custom (rowOf e name) =
          custom ++ [⟨name, fieldText e name, ((e.fields.lookup name).map isProtected).getD false⟩] := by
        unfold EditForm.putRow rowOf Input.new PasswordInput.withValue
        dsimp only
        rw [String.ofList_toList, String.ofList_toList, htrim, if_neg hne, List.filter_eq_self.2]
        intro f hf
        refine decide_eq_true fun h => hnew f hf ?_
        rw [h]
        exact List.mem_cons_self
      rw [List.map_cons, List.foldl_cons, hput, ih hn fun name h => hclean name (List.mem_cons_of_mem _ h)]
      · rw [List.append_assoc]
        rfl
      · intro f hf hmem
        rcases List.mem_append.1 hf with hf | hf
        · exact hnew f hf (List.mem_cons_of_mem name hmem)
        · obtain rfl := List.mem_singleton.1 hf
          exact hnot hmem
  exact keep [] fun f hf => absurd hf List.not_mem_nil

end

/-! ## What a save writes -/

/-- One edit of a version. -/
def editStep (v : Version) (edit : ViewEdit) : Version :=
  match edit.apply v with
  | some (fields, tags) => { v with fields := fields, tags := tags }
  | none => v

theorem foldl_setCustomField (custom : List CustomFieldDraft) (v : Version) :
    (custom.map fun f => ViewEdit.setCustomField f.name f.value f.protected).foldl editStep v =
      { v with fields := (custom.map fun f => (f.name, fieldValue f.protected f.value)).foldl
                 (fun m p => m.insert p.1 p.2) v.fields } := by
  induction custom generalizing v with
  | nil => rfl
  | cons f custom ih => exact ih _

theorem foldl_removeCustomField (names : List String) (v : Version) :
    ((names.map ViewEdit.removeCustomField).foldl editStep v).tags = v.tags ∧
    ∀ n, ((names.map ViewEdit.removeCustomField).foldl editStep v).fields.lookup n =
      if n ∈ names then none else v.fields.lookup n := by
  induction names generalizing v with
  | nil => exact ⟨rfl, fun n => (if_neg List.not_mem_nil).symm⟩
  | cons name names ih =>
    have step : (editStep v (.removeCustomField name)).tags = v.tags ∧
        ∀ n, (editStep v (.removeCustomField name)).fields.lookup n = if n = name then none else v.fields.lookup n := by
      have hstep : editStep v (.removeCustomField name) =
          if name ∈ v.fields then { v with fields := v.fields.erase name } else v := by
        by_cases hname : name ∈ v.fields <;> simp [editStep, ViewEdit.apply, hname]
      rw [hstep]
      by_cases hname : name ∈ v.fields
      · rw [if_pos hname]
        exact ⟨rfl, fun n => Finmap.lookup_erase_eq name n v.fields⟩
      · rw [if_neg hname]
        refine ⟨rfl, fun n => ?_⟩
        split
        · subst_vars
          exact Finmap.lookup_eq_none.2 hname
        · rfl
    obtain ⟨htags, hlookup⟩ := ih (editStep v (.removeCustomField name))
    refine ⟨htags.trans step.1, fun n => ?_⟩
    rw [List.map_cons, List.foldl_cons, hlookup, step.2]
    simp only [List.mem_cons]
    split_ifs <;> simp_all

/-- What the standard fields are set to. -/
def written (values : EditValues) : List (String × Value String) :=
  (titleField, .unprotected values.title) ::
    (match values.kind with
      | .credential => [(usernameField, .unprotected values.username), (passwordField, .«protected» values.password),
          (urlField, .unprotected values.url)]
      | .totp => [(usernameField, .unprotected values.username), (urlField, .unprotected values.url)]
      | .secureNote => []) ++
    [(notesField, .unprotected values.notes)]

/-- The fields after a save: those set are set, in their order, and then those removed are gone. -/
theorem applyEdits_edits (values : EditValues) (v : Version) :
    (∀ n, (applyEdits values.edits v).1.lookup n = if n ∈ values.removedCustom then none else
      ((written values ++ values.custom.map fun f => (f.name, fieldValue f.protected f.value)).foldl
        (fun m p => m.insert p.1 p.2) v.fields).lookup n) ∧
    (applyEdits values.edits v).2 =
      values.tags.foldl (fun tags value => if value ∈ tags then tags else tags ++ [value]) [] := by
  have step : applyEdits values.edits v =
      ((values.edits.foldl editStep v).fields, (values.edits.foldl editStep v).tags) := rfl
  have standard : ∃ v', (written values).foldl (fun m p => m.insert p.1 p.2) v.fields = v'.fields ∧
      v'.tags = values.tags.foldl (fun tags value => if value ∈ tags then tags else tags ++ [value]) [] ∧
      values.edits.foldl editStep v =
        (values.removedCustom.map ViewEdit.removeCustomField).foldl editStep
          ((values.custom.map fun f => ViewEdit.setCustomField f.name f.value f.protected).foldl editStep v') := by
    unfold EditValues.edits written
    cases values.kind <;>
    · simp only [List.foldl_append, List.cons_append, List.foldl_cons]
      exact ⟨_, rfl, rfl, rfl⟩
  obtain ⟨v', hfields, htags, hfold⟩ := standard
  obtain ⟨hkeep, hlookup⟩ := foldl_removeCustomField values.removedCustom
    ((values.custom.map fun f => ViewEdit.setCustomField f.name f.value f.protected).foldl editStep v')
  rw [step, hfold]
  refine ⟨fun n => ?_, ?_⟩
  · rw [hlookup, foldl_setCustomField, List.foldl_append, hfields]
  · dsimp only
    rw [hkeep, foldl_setCustomField]
    exact htags

/-! ## Saving what was not edited -/

section

variable {lowercase : String → String} {walk : Enumeration String} {db db' : Database} {uuid : Uuid}
    {now : NaiveDateTime}
  {e : Entry}

theorem mem_shownNames {name : String} : name ∈ shownNames lowercase walk e ↔ IsShown lowercase e name := by
  unfold shownNames customFieldNames IsShown
  simp only [List.mem_filter, Enumeration.mem_list, Finmap.mem_keys, decide_eq_true_eq, and_assoc]

theorem nodup_shownNames : (shownNames lowercase walk e).Nodup := ((walk.nodup_list _).filter _).filter _

/-- What is read out of the form of an entry, where its tags are read as `tags`. -/
def readBack (lowercase : String → String) (walk : Enumeration String) (e : Entry) (tags : List Tag) : EditValues where
  kind := kindOf e
  title := trimmed (fieldText e titleField)
  username := fieldText e usernameField
  password := fieldText e passwordField
  url := fieldText e urlField
  totpUri := ""
  notes := fieldText e notesField
  tags := tags.map Tag.text
  custom := ((shownNames lowercase walk e).map (rowOf e)).foldl EditForm.putRow []
  removedCustom := (shownNames lowercase walk e).filter fun orig =>
    orig ∉ (((shownNames lowercase walk e).map (rowOf e)).foldl EditForm.putRow []).map (·.name)

/-- A form with a reserved name is refused; else the tags that are read are those of the entry if they are fit for the
form. -/
theorem snapshot_fromEntry (lowercase : String → String) (walk : Enumeration String)
    (htitle : trimmed (fieldText e titleField) ≠ "") :
    (HasReservedName lowercase e →
      (EditForm.fromEntry lowercase walk e).snapshot lowercase = .error reservedName) ∧
    (¬ HasReservedName lowercase e → ∃ tags : List Tag, tags.Nodup ∧
      (tags.map Tag.text = e.tags ↔
        (∀ tag ∈ e.tags, tag ≠ "" ∧ ∀ c ∈ tag.toList, c ≠ ';' ∧ isTagSeparator c = false) ∧ e.tags.Nodup) ∧
      (EditForm.fromEntry lowercase walk e).snapshot lowercase = .ok (readBack lowercase walk e tags)) := by
  obtain ⟨tags, hparse, hn, htags⟩ := parseTags_joined e.tags
  have hreserved : (∃ row ∈ (shownNames lowercase walk e).map (rowOf e),
      trimmed (String.ofList row.name.value) ≠ "" ∧ isOtpField lowercase (trimmed (String.ofList row.name.value)) =
        true) ↔
      HasReservedName lowercase e := by
    unfold HasReservedName
    simp only [List.mem_map, exists_exists_and_eq_and, mem_shownNames, rowOf, Input.new, String.ofList_toList]
  have hrows := readRows_eq lowercase ((shownNames lowercase walk e).map (rowOf e)) []
  have hread : (EditForm.fromEntry lowercase walk e).snapshot lowercase =
      (parseTags ([' '].intercalate ((tagsFromEntry e.tags).map fun tag => tag.text.toList))).bind fun tags =>
        (EditForm.readRows lowercase ((shownNames lowercase walk e).map (rowOf e))).bind fun custom => .ok {
          kind := kindOf e
          title := trimmed (fieldText e titleField)
          username := fieldText e usernameField
          password := fieldText e passwordField
          url := fieldText e urlField
          totpUri := ""
          notes := fieldText e notesField
          tags := tags.map Tag.text
          custom := custom
          removedCustom := (shownNames lowercase walk e).filter fun orig => orig ∉ custom.map (·.name) } := by
    unfold EditForm.snapshot EditForm.fromEntry Input.new PasswordInput.withValue
    simp only [String.ofList_toList, String.toList_ofList, if_neg htitle, TextArea.value_fromStr]
    rfl
  unfold EditForm.readRows at hread
  refine ⟨fun h => ?_, fun h => ⟨tags, hn, htags, ?_⟩⟩
  · rw [hread, hparse, hrows, if_pos (hreserved.2 h)]
    rfl
  · rw [hread, hparse, hrows, if_neg fun hrow => h (hreserved.1 hrow)]
    rfl

/-- The text a save writes into a standard field. -/
def writtenText (e : Entry) (name : String) : String :=
  if name = titleField then trimmed (fieldText e titleField) else fieldText e name

theorem written_readBack (tags : List Tag) : written (readBack lowercase walk e tags) =
    (writtenFields (kindOf e)).map fun p => (p.1, fieldValue p.2 (writtenText e p.1)) := by
  unfold written readBack writtenFields
  cases kindOf e <;> rfl

theorem writtenFields_known (kind : EntryKind) : (writtenFields kind).map Prod.fst ⊆ knownFields ∧
    ((writtenFields kind).map Prod.fst).Nodup := by
  cases kind <;> decide

/-- With names that are read back as they are nothing is removed, and every custom field is set to what it was. -/
theorem readBack_clean (walk : Enumeration String) (tags : List Tag)
    (hclean : ∀ name, IsShown lowercase e name → trimmed name = name ∧ name ≠ "") :
    (readBack lowercase walk e tags).removedCustom = [] ∧
    (readBack lowercase walk e tags).custom.map (fun f => (f.name, fieldValue f.protected f.value)) =
      (shownNames lowercase walk e).map fun name =>
        (name, fieldValue (((e.fields.lookup name).map isProtected).getD false) (fieldText e name)) := by
  have hrows : (readBack lowercase walk e tags).custom = _ :=
    putRow_clean e nodup_shownNames fun name hname => hclean name (mem_shownNames.1 hname)
  have hremoved : (readBack lowercase walk e tags).removedCustom = (shownNames lowercase walk e).filter fun orig =>
    orig ∉ (readBack lowercase walk e tags).custom.map (·.name) := rfl
  refine ⟨?_, ?_⟩
  · rw [hremoved, hrows, List.filter_eq_nil_iff]
    intro name hname
    simpa using hname
  · rw [hrows, List.map_map]
    rfl

/-- A field that is there is what its text and its protection make. -/
theorem fieldValue_lookup {name : String} {v : Value String} (h : e.fields.lookup name = some v) :
    fieldValue (((e.fields.lookup name).map isProtected).getD false) (fieldText e name) = v := by
  unfold fieldText
  rw [h]
  cases v <;> rfl

theorem updateEntry_entry (now : NaiveDateTime)
    {f : Version → Except VaultError (HashMap String (Value String) × List String)}
    {x : HashMap String (Value String) × List String} (he : db.entry uuid = some e) (hf : f e.toVersion = .ok x) :
    ∃ db' e', updateEntry db uuid f now = .ok db' ∧ db'.entry uuid = some e' ∧ e'.fields = x.1 ∧ e'.tags = x.2 := by
  refine ⟨_, edited x.1 x.2 now (recordHistory (historyCap db) e), updateEntry_ok now he hf, ?_, rfl, rfl⟩
  rw [entry_modifyEntry, if_pos rfl, he, Option.map_some]

/-- A save of the untouched form: the fields the form shows are set, and a custom field whose name is not read back as
it is goes. -/
theorem saveUntouched_spec (lowercase : String → String) (walk : Enumeration String) (now : NaiveDateTime)
    (he : db.entry uuid = some e) (htitle : trimmed (fieldText e titleField) ≠ "") :
    (HasReservedName lowercase e → saveUntouched lowercase walk db uuid now = .error (.form reservedName)) ∧
    (¬ HasReservedName lowercase e → ∃ (tags : List Tag) (db' : Database) (e' : Entry),
      (tags.map Tag.text = e.tags ↔
        (∀ tag ∈ e.tags, tag ≠ "" ∧ ∀ c ∈ tag.toList, c ≠ ';' ∧ isTagSeparator c = false) ∧ e.tags.Nodup) ∧
      saveUntouched lowercase walk db uuid now = .ok db' ∧ db'.entry uuid = some e' ∧ e'.tags = tags.map Tag.text ∧
      (∀ name, IsShown lowercase e name → ¬ (trimmed name = name ∧ name ≠ "") → e'.fields.lookup name = none) ∧
      ((∀ name, IsShown lowercase e name → trimmed name = name ∧ name ≠ "") →
        (∀ p ∈ writtenFields (kindOf e), e'.fields.lookup p.1 = some (fieldValue p.2 (writtenText e p.1))) ∧
        ∀ name, name ∉ (writtenFields (kindOf e)).map Prod.fst → e'.fields.lookup name = e.fields.lookup name)) := by
  obtain ⟨hrefused, hread⟩ := snapshot_fromEntry lowercase walk htitle
  refine ⟨fun h => ?_, fun h => ?_⟩
  · unfold saveUntouched
    simp only [he, hrefused h]
  obtain ⟨tags, hn, htags, hvalues⟩ := hread h
  obtain ⟨hlookup, hmade⟩ := applyEdits_edits (readBack lowercase walk e tags) e.toVersion
  obtain ⟨db', e', hupdate, he', hfields, hetags⟩ :=
    @updateEntry_entry db uuid e now (fun v => .ok (applyEdits (readBack lowercase walk e tags).edits v)) _ he rfl
  refine ⟨tags, db', e', htags, ?_, he', ?_, fun name hshown hbad => ?_, fun hclean => ?_⟩
  · unfold saveUntouched
    simp only [he, hvalues, hupdate]
    rfl
  · have hdistinct := foldl_distinct tags []
    rw [hetags, hmade]
    exact hdistinct.trans (congrArg _ (distinct_eq hn))
  · -- a name that trimming changes is not read back, so it counts as removed
    have hgone : name ∈ (readBack lowercase walk e tags).removedCustom := by
      refine List.mem_filter.2 ⟨mem_shownNames.2 hshown, decide_eq_true fun hmem => ?_⟩
      obtain ⟨f, hf, rfl⟩ := List.mem_map.1 hmem
      obtain ⟨row, -, hname, hne⟩ := putRow_names hf
      refine hbad ⟨?_, hne⟩
      rw [hname, trimmed_trimmed]
    rw [hfields, hlookup, if_pos hgone]
  · obtain ⟨hnone, hset⟩ := readBack_clean walk tags hclean
    -- the save inserts the standard fields and then the rows, under names that are all different
    set pairs := (writtenFields (kindOf e)).map (fun p => (p.1, fieldValue p.2 (writtenText e p.1))) ++
      (shownNames lowercase walk e).map fun name =>
        (name, fieldValue (((e.fields.lookup name).map isProtected).getD false) (fieldText e name)) with hpairs
    have hafter : ∀ n, e'.fields.lookup n = (pairs.foldl (fun m p => m.insert p.1 p.2) e.fields).lookup n := by
      intro n
      rw [hfields, hlookup, hnone, if_neg List.not_mem_nil, written_readBack, hset]
    have hkeys : pairs.map Prod.fst = (writtenFields (kindOf e)).map Prod.fst ++ shownNames lowercase walk e := by
      rw [hpairs, List.map_append, List.map_map, List.map_map]
      exact congrArg _ (List.map_id _)
    obtain ⟨hknown, hdistinct⟩ := writtenFields_known (kindOf e)
    have hnodup : (pairs.map Prod.fst).Nodup := by
      rw [hkeys]
      refine hdistinct.append nodup_shownNames fun name hw hs => ?_
      exact (mem_shownNames.1 hs).2.1 (hknown hw)
    refine ⟨fun p hp => ?_, fun name hname => ?_⟩
    · have hmem : (p.1, fieldValue p.2 (writtenText e p.1)) ∈ pairs := List.mem_append_left _ (List.mem_map_of_mem hp)
      rw [hafter]
      exact Finmap.lookup_foldl_insert_of_mem hnodup hmem
    · rw [hafter]
      by_cases hs : name ∈ shownNames lowercase walk e
      · obtain ⟨v, hv⟩ := Finmap.mem_iff.1 (mem_shownNames.1 hs).1
        have hmem : (name, v) ∈ pairs := by
          refine List.mem_append_right _ (List.mem_map.2 ⟨name, hs, ?_⟩)
          rw [fieldValue_lookup hv]
        rw [hv]
        exact Finmap.lookup_foldl_insert_of_mem hnodup hmem
      · refine Finmap.lookup_foldl_insert_of_notMem ?_
        rw [hkeys, List.mem_append, not_or]
        exact ⟨hname, hs⟩

theorem fieldText_of_lookup {name : String} {v : Value String} (h : e.fields.lookup name = some v) :
    fieldText e name = v.get := by
  unfold fieldText
  rw [h]
  rfl

theorem get_fieldValue (isP : Bool) (text : String) :
    (fieldValue isP text).get = text ∧ isProtected (fieldValue isP text) = isP := by
  cases isP <;> exact ⟨rfl, rfl⟩

/-- The form of an entry with a title, saved without an edit, is refused for a name that is reserved without the white
space around it and for nothing else, and what it showed of the entry is then as it was if and only if it was refused
or the entry is one the form can show and give back. -/
theorem untouched_save_iff (lowercase : String → String) (walk : Enumeration String) (now : NaiveDateTime)
    (he : db.entry uuid = some e) (htitle : trimmed (fieldText e titleField) ≠ "") :
    ((∃ db', saveUntouched lowercase walk db uuid now = .ok db') ↔ ¬ HasReservedName lowercase e) ∧
    ((∀ db', saveUntouched lowercase walk db uuid now = .ok db' → ∃ e', db'.entry uuid = some e' ∧ SameContent e e') ↔
      HasReservedName lowercase e ∨ FormFaithful lowercase e) := by
  obtain ⟨hrefused, hsaved⟩ := saveUntouched_spec lowercase walk now he htitle
  by_cases hreserved : HasReservedName lowercase e
  · have hrefused := hrefused hreserved
    refine ⟨iff_of_false ?_ fun h => h hreserved, iff_of_true ?_ (.inl hreserved)⟩
    · rintro ⟨db', h⟩
      rw [hrefused] at h
      cases h
    · intro db' h
      rw [hrefused] at h
      cases h
  obtain ⟨tags, db', e', htags, hsave, he', hnew, hgone, hclean⟩ := hsaved hreserved
  refine ⟨iff_of_true ⟨db', hsave⟩ hreserved, ?_, ?_⟩
  · intro hall
    obtain ⟨e₁, he₁, hsame⟩ := hall db' hsave
    obtain rfl := Option.some.inj (he'.symm.trans he₁)
    -- a name that is not read back is gone, which the custom fields rule out
    have hnames : ∀ name, IsShown lowercase e name → trimmed name = name ∧ name ≠ "" := by
      intro name hshown
      by_contra hbad
      obtain ⟨v, hv⟩ := Finmap.mem_iff.1 hshown.1
      have hkept := hsame.custom name hshown.2.1
      rw [hgone name hshown hbad, hv] at hkept
      cases hkept
    obtain ⟨hwritten, -⟩ := hclean hnames
    obtain ⟨htexts, hn⟩ := htags.1 (hnew.symm.trans hsame.tags)
    refine .inr ⟨?_, hnames, htexts, hn, fun p hp v hv => ?_⟩
    · have hmem : (titleField, false) ∈ writtenFields (kindOf e) := by cases kindOf e <;> decide
      have htext := hsame.texts titleField (by decide)
      rw [fieldText_of_lookup (hwritten _ hmem)] at htext
      exact htext
    · have hflag := hsame.flags p.1 ((writtenFields_known _).1 (List.mem_map_of_mem hp)) v hv
      rw [hwritten p hp, Option.map_some, (get_fieldValue _ _).2] at hflag
      exact (Option.some.inj hflag).symm
  · rintro (h | hfaithful) db₁ hdb₁
    · exact absurd h hreserved
    obtain rfl := Except.ok.inj (hsave.symm.trans hdb₁)
    obtain ⟨hwritten, hother⟩ := hclean hfaithful.names
    have htext : ∀ name, writtenText e name = fieldText e name := by
      intro name
      unfold writtenText
      split
      · subst_vars
        exact hfaithful.title
      · rfl
    refine ⟨e', he', ?_, ?_, fun name hname => ?_, fun name hname v hv => ?_⟩
    · intro name _
      by_cases hw : name ∈ (writtenFields (kindOf e)).map Prod.fst
      · obtain ⟨p, hp, rfl⟩ := List.mem_map.1 hw
        rw [fieldText_of_lookup (hwritten p hp), (get_fieldValue _ _).1, htext]
      · unfold fieldText
        rw [hother name hw]
    · exact hnew.trans (htags.2 ⟨hfaithful.tagTexts, hfaithful.tagsDistinct⟩)
    · exact hother name fun hw => hname ((writtenFields_known _).1 hw)
    · by_cases hw : name ∈ (writtenFields (kindOf e)).map Prod.fst
      · obtain ⟨p, hp, rfl⟩ := List.mem_map.1 hw
        rw [hwritten p hp, Option.map_some, (get_fieldValue _ _).2, hfaithful.flags p hp v hv]
      · rw [hother name hw, hv, Option.map_some]

end

/-! An entry with one tag, of one word or of two. -/

def asciiLower (s : String) : String := String.ofList (s.toList.map Char.toLower)

def taggedEntry (tag : String) : Entry :=
  { id := 5, parent := 1, fields := (∅ : HashMap String (Value String)).insert titleField (.unprotected "bank"),
    tags := [tag] }

def oneEntryVault (e : Entry) : Database := { emptyVault with entries := (∅ : HashMap EntryId Entry).insert 5 e }

/-- A tag of two words comes back as two tags. -/
theorem space_splits_tag : ¬ ∀ (lowercase : String → String) (walk : Enumeration String) (db : Database) (uuid : Uuid)
    (now : NaiveDateTime) (e : Entry), db.entry uuid = some e → trimmed (fieldText e titleField) ≠ "" →
    ∀ db', saveUntouched lowercase walk db uuid now = .ok db' → ∃ e', db'.entry uuid = some e' ∧ SameContent e e' := by
  intro hall
  have hsave : ∃ db', saveUntouched asciiLower .sorted (oneEntryVault (taggedEntry "to do")) 5 9 = .ok db' ∧
      (db'.entry 5).map (fun e => e.tags) = some ["to", "do"] := ⟨_, rfl, by decide +kernel⟩
  obtain ⟨db', hsave, htags⟩ := hsave
  have there : (oneEntryVault (taggedEntry "to do")).entry 5 = some (taggedEntry "to do") := by decide +kernel
  have titled : trimmed (fieldText (taggedEntry "to do") titleField) ≠ "" := by decide +kernel
  obtain ⟨e', he', hsame⟩ := hall _ _ _ _ _ _ there titled _ hsave
  rw [he', Option.map_some, hsame.tags] at htags
  have one : some (taggedEntry "to do").tags ≠ some ["to", "do"] := by decide
  exact one htags

theorem titleOnly {tag name : String} (h : name ∈ (taggedEntry tag).fields) : name = titleField := by
  have htitle : name = titleField ∨ name ∈ (∅ : HashMap String (Value String)) := Finmap.mem_insert.1 h
  exact htitle.resolve_right Finmap.notMem_empty

theorem untouched_save_iff_word :
    ∃ db' e', saveUntouched asciiLower .sorted (oneEntryVault (taggedEntry "todo")) 5 9 = .ok db' ∧
      db'.entry 5 = some e' ∧ SameContent (taggedEntry "todo") e' := by
  have there : (oneEntryVault (taggedEntry "todo")).entry 5 = some (taggedEntry "todo") := by decide +kernel
  have titled : trimmed (fieldText (taggedEntry "todo") titleField) ≠ "" := by decide +kernel
  have none_shown : ∀ name, ¬ IsShown asciiLower (taggedEntry "todo") name := by
    rintro name ⟨hmem, hknown, -⟩
    rw [titleOnly hmem] at hknown
    exact hknown (by decide)
  have faithful : FormFaithful asciiLower (taggedEntry "todo") := by
    refine ⟨by decide +kernel, fun name h => absurd h (none_shown name), ?_, by decide, fun p hp v hv => ?_⟩
    · intro tag htag
      obtain rfl := List.mem_singleton.1 htag
      have letters : ("todo".toList.all fun c => c ≠ ';' && !isTagSeparator c) = true := by decide
      refine ⟨by decide, fun c hc => ?_⟩
      simpa using List.all_eq_true.1 letters c hc
    · have hname := titleOnly (Finmap.mem_of_lookup_eq_some hv)
      rw [hname] at hv
      obtain rfl := Option.some.inj ((Finmap.lookup_insert _).symm.trans hv)
      have hplain : ∀ q ∈ writtenFields (kindOf (taggedEntry "todo")), q.1 = titleField → false = q.2 := by
        decide +kernel
      exact hplain p hp hname
  obtain ⟨saved, same⟩ := untouched_save_iff asciiLower .sorted 9 there titled
  obtain ⟨db', hsave⟩ := saved.2 fun ⟨name, hshown, _⟩ => none_shown name hshown
  obtain ⟨e', he', hsame⟩ := same.2 (.inr faithful) db' hsave
  exact ⟨db', e', hsave, he', hsame⟩

end Falach.Tui
