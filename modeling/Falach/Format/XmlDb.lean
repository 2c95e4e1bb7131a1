import Falach.Keepass.Edit
import Falach.Lib.Text
/-!
# `to_xml` and `xml_to_db`

What a database is between saving and opening, as far as it is not just copied: an attachment of an entry is a number
there, and the attachments themselves are a list in the inner header. The tags of an entry are one text. The nesting of
the XML elements is the tree of groups, which the links of the database say as well.
-/

namespace Keepass

/-- `KeePassFile` with the attachments of the inner header. The tree has the numbers of the `Binary` fields as its
attachments, and no pool. Its only tag, if there is one, is the text of the `Tags` element. -/
structure KeePassFile where
  tree : Database
  -- `Meta/Binaries`, where older files have their attachments
  binaries : List (Value Bytes) := []
  headerAttachments : List (Value Bytes)

/-- The text of the `Tags` element: the tags with commas between them, if there are any. -/
def writeTags : List String → Option String
  | [] => none
  | tag :: tags => some (tags.foldl (fun a b => a ++ "," ++ b) tag)

/-- A version as it is written. -/
def Version.write (v : Version) : Version := { v with tags := (writeTags v.tags).toList }

/-- `Entry::db_to_xml`, with the versions in the history. -/
def Entry.write (e : Entry) : Entry :=
  { toVersion := e.toVersion.write
    history := e.history.map fun history => history.map (·.write) }

/-- `to_xml`: the attachments sorted by their numbers, and the tree with these numbers. -/
def toXml (db : Database) : KeePassFile where
  tree := { db with attachments := ∅, entries := db.entries.mapVals Entry.write }
  headerAttachments := (Enumeration.sorted.list db.attachments.keys).filterMap fun id =>
    (db.attachments.lookup id).map (·.data)

/-- The pool of a file: a header attachment has its place in the list as its number. -/
def filePool (file : KeePassFile) : HashMap AttachmentId Attachment :=
  let header : HashMap AttachmentId Attachment := file.headerAttachments.zipIdx.foldl
    (fun pool x => pool.insert x.2 { id := x.2, data := x.1 }) ∅
  -- `next_free` looks into the new database, whose pool is still empty
  let id := ({ file.tree with attachments := ∅ } : Database).nextFree
  file.binaries.foldl (fun pool data => pool.insert id { id := id, data := data }) header

/-- An icon that is not in the file is left out. -/
def readIcon (icons : HashMap CustomIconId CustomIcon) (icon : Option Icon) : Option Icon :=
  icon.filter fun
    | .custom id => id ∈ icons
    | .builtIn _ => true

/-- `cs_opt_string`: a text of white space only is none. -/
def readText (text : Option String) : Option String := text.filter fun s => Text.trim s.toList ≠ []

/-- The tags in the text of the `Tags` element. -/
def readTags (text : Option String) : List String :=
  match readText text with
  | none => []
  | some s => (s.toList.splitOn ',').map String.ofList

/-- Whether a string field has a value in the file: one that is protected is there in base64. -/
def hasValue : Value String → Bool
  | .unprotected s => (readText (some s)).isSome
  | .«protected» s => s ≠ ""

/-- A version as it is read: a field without a value and a number that is not in the file are left out. -/
def Version.read (pool : HashMap AttachmentId Attachment) (icons : HashMap CustomIconId CustomIcon) (v : Version) :
    Version :=
  { v with
    fields := v.fields.filterVals hasValue
    tags := readTags v.tags.head?
    attachments := v.attachments.filterVals fun id => id ∈ pool
    icon := readIcon icons v.icon }

/-- `Entry::xml_to_db_handle`, with the versions in the history. -/
def Entry.read (pool : HashMap AttachmentId Attachment) (icons : HashMap CustomIconId CustomIcon) (e : Entry) : Entry :=
  { toVersion := e.toVersion.read pool icons
    history := e.history.map fun history => history.map (·.read pool icons) }

/-- `Group::xml_to_db_handle`. -/
def Group.read (icons : HashMap CustomIconId CustomIcon) (g : Group) : Group := { g with icon := readIcon icons g.icon }

/-- The versions of an entry that have the icon. -/
def Entry.iconUses (e : Entry) (icon : CustomIconId) : List (EntryId × Option Nat) :=
  (if e.icon = some (.custom icon) then [(e.id, none)] else []) ++
    ((e.history.getD []).zipIdx.filter fun v => v.1.icon = some (.custom icon)).map fun v => (e.id, some v.2)

/-- The back-references of an icon, collected again. -/
def CustomIcon.linkBack (entries : HashMap EntryId Entry) (groups : HashMap GroupId Group) (icon : CustomIcon) :
    CustomIcon :=
  { icon with
    entries := entries.keys.biUnion fun id => ((entries.lookup id).map (·.iconUses icon.id)).getD [] |>.toFinset
    groups := groups.keys.filter fun id => (groups.lookup id).any fun g => g.icon = some (.custom icon.id) }

/-- `KeePassFile::xml_to_db`. The attachments have no back-references. -/
def xmlToDb (file : KeePassFile) : Database :=
  let pool := filePool file
  let entries := file.tree.entries.mapVals (Entry.read pool file.tree.customIcons)
  let groups := file.tree.groups.mapVals (Group.read file.tree.customIcons)
  { file.tree with
    attachments := pool
    entries := entries
    groups := groups
    customIcons := file.tree.customIcons.mapVals (·.linkBack entries groups) }

/-! ## What is read back -/

theorem lookup_foldl_zipIdx {l : List (Value Bytes)} {i : Nat} {pool : HashMap AttachmentId Attachment} (c : Nat) :
    ((l.zipIdx i).foldl (fun pool x => pool.insert x.2 { id := x.2, data := x.1 }) pool).lookup c =
      if i ≤ c ∧ c < i + l.length then (l[c - i]?).map fun data => { id := c, data := data } else pool.lookup c := by
  induction l generalizing i pool with
  | nil => rw [if_neg (by simp)]; rfl
  | cons x l ih =>
    rw [List.zipIdx_cons, List.foldl_cons, ih, Finmap.lookup_insert_eq, List.length_cons]
    by_cases hc : c = i
    · subst hc
      rw [if_neg (by omega), if_pos rfl, if_pos (by omega), Nat.sub_self]; rfl
    · rw [if_neg hc]
      by_cases hin : i + 1 ≤ c ∧ c < i + 1 + l.length
      · rw [if_pos hin, if_pos (by omega), show c - i = c - (i + 1) + 1 by omega, List.getElem?_cons_succ]
      · rw [if_neg hin, if_neg (by omega)]

/-- Without older binaries, slot `c` of a file is the `c`th header attachment. -/
theorem lookup_filePool {file : KeePassFile} (h : file.binaries = []) (c : Nat) :
    ((filePool file).lookup c).map (·.data) = file.headerAttachments[c]? := by
  unfold filePool
  rw [h, List.foldl_nil, lookup_foldl_zipIdx]
  by_cases hc : c < file.headerAttachments.length
  · rw [if_pos (by omega), Nat.sub_zero, Option.map_map]
    exact Option.map_id'
  · rw [if_neg (by omega), List.getElem?_eq_none (by omega)]; rfl

/-- The numbers of a file are those of its header attachments; all older binaries get the number 0. -/
theorem mem_filePool (file : KeePassFile) (c : Nat) :
    c ∈ filePool file ↔ c < file.headerAttachments.length ∨ (file.binaries ≠ [] ∧ c = 0) := by
  have first : ({ file.tree with attachments := ∅ } : Database).nextFree = 0 := rfl
  have header : ∀ c, c ∈ file.headerAttachments.zipIdx.foldl
      (fun (pool : HashMap AttachmentId Attachment) x => pool.insert x.2 { id := x.2, data := x.1 }) ∅ ↔
      c < file.headerAttachments.length := by
    intro c
    rw [← Finmap.lookup_isSome, lookup_foldl_zipIdx, Nat.zero_add]
    by_cases hc : c < file.headerAttachments.length
    · rw [if_pos ⟨Nat.zero_le c, hc⟩, Nat.sub_zero, List.getElem?_eq_getElem hc]
      exact iff_of_true rfl hc
    · rw [if_neg fun hin => hc hin.2]
      exact iff_of_false Bool.false_ne_true hc
  unfold filePool
  rw [first]
  simp only
  rw [← header c]
  generalize file.headerAttachments.zipIdx.foldl _ _ = pool
  induction file.binaries generalizing pool with
  | nil => simp
  | cons data l ih =>
    rw [List.foldl_cons]
    refine (ih _).trans ?_
    rw [Finmap.mem_insert]
    by_cases hc : c = 0
    · simp [hc]
    · simp [hc]

theorem entry_xmlToDb (file : KeePassFile) (id : EntryId) :
    (xmlToDb file).entry id = (file.tree.entry id).map (Entry.read (filePool file) file.tree.customIcons) :=
  Finmap.lookup_mapVals _ _ _

/-- An entry that is written and read. -/
theorem entry_reopened (db : Database) (id : EntryId) :
    (xmlToDb (toXml db)).entry id = (db.entry id).map fun e => e.write.read (filePool (toXml db)) db.customIcons := by
  have written : (toXml db).tree.entry id = (db.entry id).map Entry.write := Finmap.lookup_mapVals _ _ _
  rw [entry_xmlToDb, written, Option.map_map]
  rfl

end Keepass
