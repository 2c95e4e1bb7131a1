import Falach.Core.Crud
import Falach.Format.XmlDb
/-!
# Tags

A tag is a text without a semicolon. In a file the tags of an entry are one text with commas between them, so a tag
with a comma comes back as several, and a text of white space only comes back as no tag.
-/

namespace Falach

open Keepass Database

/-- `Tag`. -/
structure Tag where
  text : String
  valid : ';' ∉ text.toList
deriving DecidableEq

namespace Tag

/-- `Tag::from`. -/
def «from» (value : String) : Except VaultError Tag :=
  if h : ';' ∈ value.toList then .error (.invalidTag value) else .ok ⟨value, h⟩

end Tag

/-- `tags_from_entry`: a text that is no tag is ignored. -/
def tagsFromEntry (tags : List String) : List Tag := tags.filterMap fun tag => (Tag.from tag).toOption

/-- `EntryView::tags` of an entry. -/
def tagsOf (db : Database) (uuid : Uuid) : Option (List Tag) := (db.entry uuid).map fun e => tagsFromEntry e.tags

/-- What `Vault::save` writes, opened again. -/
def reopened (db : Database) : Database := xmlToDb (toXml db)

/-- No tag has a comma in it, and there is not just one tag, of white space only. -/
def Separable (tags : List Tag) : Prop :=
  (∀ tag ∈ tags, ',' ∉ tag.text.toList) ∧ ∀ tag, tags = [tag] → ∃ c ∈ tag.text.toList, Text.isWhitespace c = false

variable {db db' : Database} {uuid : Uuid} {tags : List Tag}

/-! ## The text in the file -/

theorem intercalate_append (sep a b : Text) (parts : List Text) :
    sep.intercalate ((a ++ b) :: parts) = a ++ sep.intercalate (b :: parts) := by
  cases parts with
  | nil => simp
  | cons p parts => simp [List.intercalate_cons_cons]

theorem toList_writeTags (tag : String) (tags : List String) :
    (tags.foldl (fun a b => a ++ "," ++ b) tag).toList = [','].intercalate (tag.toList :: tags.map String.toList) := by
  induction tags generalizing tag with
  | nil => simp
  | cons next tags ih =>
    rw [List.foldl_cons, ih, String.toList_append, intercalate_append, String.toList_append, List.map_cons,
      List.intercalate_cons_cons]
    rfl

/-- A text of two tags or more has a comma in it, which is no white space. -/
theorem blank_iff (tag : String) (tags : List String) :
    Text.trim ([','].intercalate (tag.toList :: tags.map String.toList)) = [] ↔
      tags = [] ∧ ∀ c ∈ tag.toList, Text.isWhitespace c = true := by
  rw [Text.trim_eq_nil]
  cases tags with
  | nil => simp
  | cons next tags =>
    refine iff_of_false (fun h => ?_) fun h => by cases h.1
    rw [List.map_cons, List.intercalate_cons_cons] at h
    have comma := h ',' (by simp)
    exact absurd comma (by decide)

theorem map_ofList_eq {parts : List Text} {texts : List String} :
    parts.map String.ofList = texts ↔ parts = texts.map String.toList := by
  constructor
  · rintro rfl
    rw [List.map_map]
    exact (List.map_id'' (fun p => String.toList_ofList) parts).symm
  · rintro rfl
    rw [List.map_map]
    exact List.map_id'' (fun p => String.ofList_toList) texts

/-- Which texts are read as they were written. -/
theorem readTags_writeTags_iff (texts : List String) : readTags (writeTags texts) = texts ↔
    (∀ s ∈ texts, ',' ∉ s.toList) ∧ ∀ s, texts = [s] → ∃ c ∈ s.toList, Text.isWhitespace c = false := by
  cases texts with
  | nil => simp [writeTags, readTags, readText]
  | cons tag tags =>
    have joined := toList_writeTags tag tags
    by_cases hblank : Text.trim ([','].intercalate (tag.toList :: tags.map String.toList)) = []
    · obtain ⟨rfl, hspace⟩ := (blank_iff tag tags).1 hblank
      refine iff_of_false (fun h => ?_) fun h => ?_
      · rw [readTags, writeTags, readText, Option.filter_some, joined, if_neg (by simpa using hblank)] at h
        cases h
      · obtain ⟨c, hc, hno⟩ := h.2 tag rfl
        rw [hspace c hc] at hno
        cases hno
    · have read : readTags (writeTags (tag :: tags)) =
          (([','].intercalate (tag.toList :: tags.map String.toList)).splitOn ',').map String.ofList := by
        rw [readTags, writeTags, readText, Option.filter_some, if_pos (by simpa [joined] using hblank)]
        simp only [joined]
      rw [read, map_ofList_eq, List.map_cons, Text.splitOn_intercalate_iff]
      constructor
      · rintro ⟨-, hcommas⟩
        refine ⟨fun s hs => hcommas _ ?_, fun s hs => ?_⟩
        · exact List.mem_map_of_mem (f := String.toList) hs
        · by_contra hall
          push Not at hall
          obtain ⟨rfl, rfl⟩ := List.cons.inj hs
          exact hblank ((blank_iff tag []).2 ⟨rfl, by simpa using hall⟩)
      · rintro ⟨hcommas, -⟩
        refine ⟨List.cons_ne_nil _ _, fun p hp => ?_⟩
        obtain ⟨s, hs, rfl⟩ := List.mem_map.1 (show p ∈ (tag :: tags).map String.toList from hp)
        exact hcommas s hs

/-! ## The tags of an entry -/

theorem from_text (tag : Tag) : Tag.from tag.text = .ok tag := dif_neg tag.valid

theorem tagsFromEntry_map (tags : List Tag) : tagsFromEntry (tags.map Tag.text) = tags := by
  unfold tagsFromEntry
  rw [List.filterMap_map]
  refine (List.filterMap_congr fun tag _ => ?_).trans List.filterMap_some
  rw [Function.comp_apply, from_text]
  rfl

theorem text_injective : Function.Injective Tag.text := by
  rintro ⟨s, hs⟩ ⟨s', hs'⟩ h
  cases h
  rfl

/-- No text is ignored when there is a semicolon in none. -/
theorem tagsFromEntry_eq_iff {texts : List String} (hvalid : ∀ s ∈ texts, ';' ∉ s.toList) :
    tagsFromEntry texts = tags ↔ texts = tags.map Tag.text := by
  obtain ⟨all, rfl⟩ : ∃ all : List Tag, texts = all.map Tag.text := by
    refine ⟨texts.pmap Tag.mk hvalid, ?_⟩
    rw [List.map_pmap]
    exact (List.pmap_eq_self.2 fun _ _ => rfl).symm
  rw [tagsFromEntry_map]
  exact (List.map_injective_iff.2 text_injective).eq_iff.symm

/-- The pieces of a text of tags are tags. -/
theorem readTags_valid {texts : List String} (hvalid : ∀ s ∈ texts, ';' ∉ s.toList) :
    ∀ s ∈ readTags (writeTags texts), ';' ∉ s.toList := by
  intro s hs
  cases texts with
  | nil => cases hs
  | cons tag rest =>
    unfold readTags at hs
    split at hs
    · cases hs
    · rename_i joined hjoined
      have hjoined := (Option.filter_eq_some_iff.1 hjoined).1
      obtain ⟨piece, hpiece, rfl⟩ := List.mem_map.1 hs
      obtain ⟨-, hsub⟩ := Text.mem_splitOn _ piece hpiece
      rw [String.toList_ofList]
      intro hsemi
      have hsemi := hsub hsemi
      rw [← Option.some.inj hjoined, toList_writeTags] at hsemi
      rcases Text.mem_intercalate hsemi with hsemi | ⟨p, hp, hsemi⟩
      · exact absurd hsemi (by decide)
      · obtain ⟨s, hs, rfl⟩ := List.mem_map.1 (show p ∈ (tag :: rest).map String.toList from hp)
        exact hvalid s hs hsemi

theorem separable_iff : Separable tags ↔ (∀ s ∈ tags.map Tag.text, ',' ∉ s.toList) ∧
    ∀ s, tags.map Tag.text = [s] → ∃ c ∈ s.toList, Text.isWhitespace c = false := by
  refine and_congr (by simp) ⟨fun h s hs => ?_, fun h tag htags => h tag.text (by rw [htags]; rfl)⟩
  obtain ⟨tag, htags, rfl⟩ := List.map_eq_singleton_iff.1 hs
  exact h tag htags

theorem tagsOf_reopened {e : Entry} (he : db.entry uuid = some e) :
    tagsOf (reopened db) uuid = some (tagsFromEntry (readTags (writeTags e.tags))) := by
  unfold tagsOf reopened
  rw [entry_reopened, he]
  change some (tagsFromEntry (readTags (writeTags e.tags).toList.head?)) = _
  cases writeTags e.tags <;> rfl

/-- The entry has these tags. -/
def HasTags (db : Database) (uuid : Uuid) (tags : List Tag) : Prop :=
  ∃ e, db.entry uuid = some e ∧ e.tags = tags.map Tag.text

theorem HasTags.tagsOf (h : HasTags db uuid tags) : tagsOf db uuid = some tags := by
  obtain ⟨e, he, htags⟩ := h
  rw [Falach.tagsOf, he, Option.map_some, htags, tagsFromEntry_map]

theorem HasTags.reopened_iff (h : HasTags db uuid tags) : Falach.tagsOf (reopened db) uuid = some tags ↔
    Separable tags := by
  obtain ⟨e, he, htags⟩ := h
  have hvalid : ∀ s ∈ tags.map Tag.text, ';' ∉ s.toList := by
    intro s hs
    obtain ⟨tag, -, rfl⟩ := List.mem_map.1 hs
    exact tag.valid
  rw [tagsOf_reopened he, htags, Option.some.injEq, tagsFromEntry_eq_iff (readTags_valid hvalid),
    readTags_writeTags_iff,
    separable_iff]

/-! ## Tags that are set -/

/-- The tags, each where it comes first. -/
def distinct (tags : List Tag) : List Tag := tags.foldl (fun kept tag => if tag ∈ kept then kept else kept ++ [tag]) []

theorem foldl_distinct (tags kept : List Tag) :
    (tags.map Tag.text).foldl (fun kept text => if text ∈ kept then kept else kept ++ [text]) (kept.map Tag.text) =
      (tags.foldl (fun kept tag => if tag ∈ kept then kept else kept ++ [tag]) kept).map Tag.text := by
  induction tags generalizing kept with
  | nil => rfl
  | cons tag tags ih =>
    rw [List.map_cons, List.foldl_cons, List.foldl_cons, ← ih]
    congr 1
    have hmem : tag.text ∈ kept.map Tag.text ↔ tag ∈ kept := List.mem_map_of_injective text_injective
    by_cases h : tag ∈ kept
    · rw [if_pos h, if_pos (hmem.2 h)]
    · rw [if_neg h, if_neg fun htext => h (hmem.1 htext), List.map_append, List.map_singleton]

/-- Tags that are all different are all kept. -/
theorem distinct_eq (h : tags.Nodup) : distinct tags = tags := by
  have keep : ∀ kept rest : List Tag, (kept ++ rest).Nodup →
      rest.foldl (fun kept tag => if tag ∈ kept then kept else kept ++ [tag]) kept = kept ++ rest := by
    intro kept rest
    induction rest generalizing kept with
    | nil => intro _; rw [List.append_nil]; rfl
    | cons tag rest ih =>
      intro hn
      have hnew : tag ∉ kept := fun hmem => List.disjoint_of_nodup_append hn hmem List.mem_cons_self
      rw [List.foldl_cons, if_neg hnew, ih _ (by simpa using hn)]
      simp
  exact keep [] tags h

theorem addEntry_hasTags {group fresh : Uuid} {draft : EntryDraft} {now : Nat → NaiveDateTime}
    (htags : draft.tags = tags.map Tag.text) (h : addEntry db group draft fresh now = .ok (db', uuid)) :
    HasTags db' uuid tags := by
  simp only [addEntry, Loop.bind_ok] at h
  obtain ⟨g, -, h⟩ := h
  obtain ⟨rfl, rfl⟩ := Prod.mk.inj (Loop.pure_ok.1 h)
  exact ⟨_, Finmap.lookup_insert _, htags⟩

/-- What a call of the view makes of the tags. -/
theorem editEntry_tags {edit : ViewEdit} {now : NaiveDateTime} (h : editEntry db uuid edit now = .ok db') :
    ∃ e e', db.entry uuid = some e ∧ db'.entry uuid = some e' ∧
      e'.tags = ((edit.apply e.toVersion).map Prod.snd).getD e.tags := by
  simp only [editEntry, Loop.bind_ok] at h
  obtain ⟨id, hid, h⟩ := h
  obtain rfl : id = uuid := by
    unfold findEntryId at hid
    split at hid
    · exact (Except.ok.inj hid).symm
    · cases hid
  cases he : db.entry id with
  | none => rw [he] at h; cases h
  | some e =>
    rw [he] at h
    dsimp only at h
    cases hedit : edit.apply e.toVersion with
    | none =>
      rw [hedit] at h
      obtain rfl := Loop.pure_ok.1 h
      exact ⟨e, e, rfl, he, by rw [hedit]; rfl⟩
    | some x =>
      rw [hedit] at h
      obtain rfl := Loop.pure_ok.1 h
      refine ⟨e, edited x.1 x.2 now e, rfl, ?_, by rw [hedit]; rfl⟩
      rw [entry_modifyEntry, if_pos rfl, he, Option.map_some]

theorem setTags_hasTags {now : NaiveDateTime} (h : editEntry db uuid (.setTags (tags.map Tag.text)) now = .ok db') :
    HasTags db' uuid (distinct tags) := by
  obtain ⟨e, e', -, he', htags⟩ := editEntry_tags h
  refine ⟨e', he', htags.trans ?_⟩
  exact foldl_distinct tags []

theorem addTag_hasTags {tag : Tag} {now : NaiveDateTime} (hhas : HasTags db uuid tags)
    (h : editEntry db uuid (.addTag tag.text) now = .ok db') :
    HasTags db' uuid (if tag ∈ tags then tags else tags ++ [tag]) := by
  obtain ⟨e, e', he, he', htags⟩ := editEntry_tags h
  obtain ⟨e₀, he₀, hold⟩ := hhas
  obtain rfl := Option.some.inj (he.symm.trans he₀)
  refine ⟨e', he', ?_⟩
  rw [htags]
  change ((if tag.text ∈ e.tags then none else some (e.fields, e.tags ++ [tag.text])).map Prod.snd).getD e.tags = _
  rw [hold]
  have hmem : tag.text ∈ tags.map Tag.text ↔ tag ∈ tags := List.mem_map_of_injective text_injective
  by_cases h : tag ∈ tags
  · rw [if_pos h, if_pos (hmem.2 h)]
    rfl
  · rw [if_neg h, if_neg fun htext => h (hmem.1 htext)]
    simp

/-- However the tags of an entry were set, by a draft, by `set_tags` or by `add_tag`, the vault that was saved and
opened has the same tags on it if and only if no tag has a comma in it and there is not just one blank tag. -/
theorem tags_survive_iff (tags : List Tag) (uuid : Uuid) :
    (∀ db, HasTags db uuid tags →
      tagsOf db uuid = some tags ∧ (tagsOf (reopened db) uuid = some tags ↔ Separable tags)) ∧
    (∀ db group draft fresh now db', draft.tags = tags.map Tag.text →
      addEntry db group draft fresh now = .ok (db', uuid) → HasTags db' uuid tags) ∧
    (∀ db now db', editEntry db uuid (.setTags (tags.map Tag.text)) now = .ok db' →
      HasTags db' uuid (distinct tags) ∧ (tags.Nodup → HasTags db' uuid tags)) ∧
    ∀ (tag : Tag) db now db', HasTags db uuid tags →
      editEntry db uuid (.addTag tag.text) now = .ok db' →
        HasTags db' uuid (if tag ∈ tags then tags else tags ++ [tag]) := by
  refine ⟨fun db h => ⟨h.tagsOf, h.reopened_iff⟩, ?_, ?_, ?_⟩
  · intro db group draft fresh now db' htags h
    exact addEntry_hasTags htags h
  · intro db now db' h
    have has := setTags_hasTags h
    exact ⟨has, fun hn => distinct_eq hn ▸ has⟩
  · intro tag db now db' hhas h
    exact addTag_hasTags hhas h

/-! An entry with one tag, in a new vault. -/

def emptyVault : Database := .withData { kdfConfig := .aes 1 } 1 0

def taggedDraft (tag : Tag) : EntryDraft := { title := "bank", tags := [tag].map Tag.text }

def taggedVault (tag : Tag) : Database :=
  match addEntry emptyVault 1 (taggedDraft tag) 5 fun _ => 10 with
  | .ok (db, _) => db
  | .error _ => emptyVault

theorem workHome_valid : ';' ∉ "work, home".toList := by decide

def workHome : Tag := ⟨"work, home", workHome_valid⟩

theorem work_valid : ';' ∉ "work".toList := by decide

def workTag : Tag := ⟨"work", work_valid⟩

/-- A tag with a comma is two tags when the vault is opened again. -/
theorem comma_splits_tag : ¬ ∀ (tags : List Tag) db group draft fresh now db' uuid, draft.tags = tags.map Tag.text →
    addEntry db group draft fresh now = .ok (db', uuid) → tagsOf (reopened db') uuid = some tags := by
  intro hall
  have added : addEntry emptyVault 1 (taggedDraft workHome) 5 (fun _ => 10) = .ok (taggedVault workHome, 5) := by
    decide +kernel
  have same := hall [workHome] _ _ _ _ _ _ _ rfl added
  have split : tagsOf (reopened (taggedVault workHome)) 5 ≠ some [workHome] := by decide +kernel
  exact split same

theorem tags_survive_iff_work : tagsOf (reopened (taggedVault workTag)) 5 = some [workTag] := by
  have added : addEntry emptyVault 1 (taggedDraft workTag) 5 (fun _ => 10) = .ok (taggedVault workTag, 5) := by
    decide +kernel
  obtain ⟨survive, draft, -⟩ := tags_survive_iff [workTag] 5
  have has := draft _ _ _ _ _ _ rfl added
  refine (survive _ has).2.2 ⟨?_, ?_⟩
  · intro tag htag
    obtain rfl := List.mem_singleton.1 htag
    decide
  · rintro tag htag
    obtain rfl := List.singleton_injective htag
    exact ⟨'w', by decide, by decide⟩

end Falach
