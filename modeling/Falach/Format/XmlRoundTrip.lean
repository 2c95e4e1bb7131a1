import Falach.Format.XmlTree
import Falach.Keepass.Tree
/-!
# Reading the document that was written

The walks that write the document and the one that reads it meet the protected values in one order, so that each is
decrypted with the part of the key stream it was encrypted with. What is read is the database that was written, as
`toXml` and `xmlToDb` describe it without the document, and with what else the format does not keep.
-/

namespace Keepass

open Cipher

/-! ## What the format does not keep -/

/-- A version in an entry of the group `parent`. -/
def Version.settle (parent : GroupId) (v : Version) : Version :=
  { v with
    parent := parent
    autotype := v.autotype.map fun a => { a with defaultSequence := readText a.defaultSequence }
    customData := v.customData.mapVals fun item => item.write.reread
    overrideUrl := readText v.overrideUrl
    qualityCheck := none }

/-- An entry: the versions in its history are read as being where the entry is. -/
def Entry.settle (e : Entry) : Entry :=
  ⟨e.toVersion.settle e.parent, some ((e.history.getD []).map (Version.settle e.parent))⟩

def Group.settle (g : Group) : Group :=
  { g with
    notes := readText g.notes
    defaultAutotypeSequence := readText g.defaultAutotypeSequence
    customData := g.customData.mapVals fun item => item.write.reread }

def Database.settle (db : Database) : Database :=
  { db with
    «meta» := { db.meta with customData := db.meta.customData.mapVals fun item => item.write.reread }
    entries := db.entries.mapVals Entry.settle
    groups := db.groups.mapVals Group.settle }

/-- What of a database is there after it was written and read. -/
def Database.kept (db : Database) : Database := (xmlToDb (toXml db)).settle

theorem Database.group_kept (db : Database) (i : GroupId) :
    db.kept.group i = (db.group i).map fun g => (g.read db.customIcons).settle := by
  refine (Finmap.lookup_mapVals _ _ _).trans ?_
  rw [xmlToDb, Finmap.lookup_mapVals, Option.map_map]
  rfl

theorem Database.entry_kept (db : Database) (i : EntryId) :
    db.kept.entry i = (db.entry i).map fun e => (e.write.read (filePool (toXml db)) db.customIcons).settle := by
  refine (Finmap.lookup_mapVals _ _ _).trans ?_
  refine (congrArg (Option.map Entry.settle) (entry_reopened db i)).trans ?_
  rw [Option.map_map]
  rfl

theorem Database.sameTree_kept (db : Database) : SameTree db db.kept where
  root := rfl
  entry i := by
    rw [entry_kept, Option.map_map]
    rfl
  group i := by
    rw [group_kept, Option.map_map]
    rfl

/-! ## Fields -/

theorem readText_encode (bytes : Bytes) : readText (some (String.ofList (Base64.encode bytes))) =
    if bytes = [] then none else some (String.ofList (Base64.encode bytes)) := by
  have htrim : Text.trim (Base64.encode bytes) = Base64.encode bytes := (Base64.canonical ()).trim_encode bytes
  have hnil : Base64.encode bytes = [] ↔ bytes = [] := by
    constructor
    · intro h
      have hdecode := Base64.decode_encode bytes
      rw [h] at hdecode
      exact (Option.some.inj hdecode).symm
    · rintro rfl
      rfl
  by_cases hbytes : bytes = []
  · rw [if_pos hbytes, hbytes]
    rfl
  · rw [if_neg hbytes, readText, Option.filter_some, String.toList_ofList, htrim, if_pos]
    exact decide_eq_true fun h => hbytes (hnil.1 h)

/-- A field is read as it was written, if it has a value in the document, and the stream is where it was after it. -/
theorem readField_fieldToXml (field : String × Value String) (s : KeyStream) : ∃ x t, fieldToXml field s = .ok (x, t) ∧
    ∀ m, readField (m, s) (x.1, { x.2 with value := readText x.2.value }) =
      .ok (if hasValue field.2 then m.insert field.1 field.2 else m, t) := by
  obtain ⟨key, value⟩ := field
  cases value with
  | unprotected text =>
    refine ⟨_, s, rfl, fun m => ?_⟩
    have hvalue : hasValue (.unprotected text) = (readText (some text)).isSome := rfl
    dsimp only
    rw [hvalue]
    by_cases hblank : Text.trim text.toList ≠ []
    · have hsome : readText (some text) = some text := by
        rw [readText, Option.filter_some, if_pos (decide_eq_true hblank)]
      rw [readField, hsome]
      rfl
    · have hnone : readText (some text) = none := by
        rw [readText, Option.filter_some, if_neg fun h => hblank (of_decide_eq_true h)]
      rw [readField, hnone]
      rfl
  | «protected» text =>
    refine ⟨(key, ⟨true, some (String.ofList (Base64.encode (s.apply (Text.utf8 text.toList)).1))⟩),
      (s.apply (Text.utf8 text.toList)).2, rfl, fun m => ?_⟩
    dsimp only
    rw [readText_encode]
    by_cases hempty : (s.apply (Text.utf8 text.toList)).1 = []
    · -- nothing was encrypted, and nothing of the stream was used
      have hlen := congrArg List.length hempty
      rw [KeyStream.length_apply] at hlen
      have hutf8 : Text.utf8 text.toList = [] := List.length_eq_zero_iff.1 hlen
      have htext : text = "" := by
        rw [← String.ofList_toList (s := text), ← Text.fromUtf8Lossy_utf8 text.toList, hutf8]
        rfl
      rw [if_pos hempty, htext]
      rfl
    · have htext : hasValue (.«protected» text) = true := by
        refine decide_eq_true fun h => hempty ?_
        rw [h]
        rfl
      have hdecode : decodeBase64 (String.ofList (Base64.encode (s.apply (Text.utf8 text.toList)).1)) =
          .ok (s.apply (Text.utf8 text.toList)).1 := by
        rw [decodeBase64, String.toList_ofList, Base64.decode_encode]
      rw [if_neg hempty, readField]
      change (decodeBase64 _).bind _ = _
      rw [hdecode, Except.bind, KeyStream.apply_apply, htext, if_pos rfl]
      dsimp only
      rw [Text.fromUtf8Lossy_utf8, String.ofList_toList]
      rfl

/-- The fields of a version are read as they were written, in whatever order. -/
theorem readFields (fields : HashMap String (Value String)) (walk : Enumeration String) (s : KeyStream) :
    ∃ xs t, Loop.mapThrough fieldToXml (fields.items walk) s = .ok (xs, t) ∧
      (xs.map fun f => (f.1, { f.2 with value := readText f.2.value })).foldlM readField (∅, s) =
        .ok (fields.filterVals hasValue, t) := by
  have hall (items : List (String × Value String)) (m : HashMap String (Value String)) (s : KeyStream) :
      ∃ xs t, Loop.mapThrough fieldToXml items s = .ok (xs, t) ∧
        (xs.map fun f => (f.1, { f.2 with value := readText f.2.value })).foldlM readField (m, s) =
          .ok ((items.filter fun f => hasValue f.2).foldl (fun m f => m.insert f.1 f.2) m, t) := by
    induction items generalizing m s with
    | nil => exact ⟨[], s, rfl, rfl⟩
    | cons field items ih =>
      obtain ⟨x, t, hwrite, hread⟩ := readField_fieldToXml field s
      obtain ⟨xs, u, hwrites, hreads⟩ := ih (if hasValue field.2 then m.insert field.1 field.2 else m) t
      refine ⟨x :: xs, u, Loop.mapThrough_cons hwrite hwrites, ?_⟩
      rw [List.map_cons, List.foldlM_cons, hread m, List.filter_cons]
      refine hreads.trans ?_
      by_cases hvalue : hasValue field.2 = true
      · rw [if_pos hvalue, if_pos hvalue, List.foldl_cons]
      · rw [if_neg hvalue, if_neg hvalue]
  obtain ⟨xs, t, hwrite, hread⟩ := hall (fields.items walk) ∅ s
  rw [Finmap.foldl_insert_filter_items] at hread
  exact ⟨xs, t, hwrite, hread⟩

/-! ## Entries -/

variable {pool : HashMap AttachmentId Attachment} {icons : HashMap CustomIconId CustomIcon}

/-- Only which icons there are matters to what has one. -/
theorem readIcon_congr {icons icons' : HashMap CustomIconId CustomIcon} (h : ∀ cid, cid ∈ icons ↔ cid ∈ icons') :
    readIcon icons = readIcon icons' := by
  funext icon
  refine congrArg (fun p => Option.filter p icon) (funext fun i => ?_)
  cases i with
  | builtIn i => rfl
  | custom cid => exact decide_eq_decide.2 (h cid)

theorem Entry.read_congr {icons icons' : HashMap CustomIconId CustomIcon} (h : ∀ cid, cid ∈ icons ↔ cid ∈ icons')
    (e : Entry) : e.read pool icons = e.read pool icons' := by
  unfold Entry.read Version.read
  rw [readIcon_congr h]

theorem readIconIds_iconIds (icon : Option Icon) : readIconIds icons (iconIds icon).1 (iconIds icon).2 = readIcon icons icon := by
  cases icon with
  | none => rfl
  | some icon =>
    cases icon with
    | builtIn i => rfl
    | custom cid =>
      rw [readIconIds, iconIds, readIcon, Option.filter_some, Option.filter_some]
      by_cases hin : cid ∈ icons
      · rw [if_pos (decide_eq_true hin), if_pos (decide_eq_true hin)]
      · rw [if_neg fun h => hin (of_decide_eq_true h), if_neg fun h => hin (of_decide_eq_true h)]
        rfl

theorem readCustomData (customData : HashMap String CustomDataItem) :
    ((writeCustomData customData).map fun data => data.mapVals CustomDataItem.reread).getD ∅ =
      customData.mapVals fun item => item.write.reread := by
  unfold writeCustomData
  split
  · rename_i hempty
    rw [hempty]
    rfl
  · refine Finmap.ext_lookup fun k => ?_
    rw [Option.map_some, Option.getD_some, Finmap.lookup_mapVals, Finmap.lookup_mapVals, Finmap.lookup_mapVals,
      Option.map_map]
    rfl

theorem readTags_eq (text : Option String) :
    ((readText text).map fun t => (t.toList.splitOn ',').map String.ofList).getD [] = readTags text.toList.head? := by
  have hhead : text.toList.head? = text := by cases text <;> rfl
  rw [hhead, readTags]
  cases readText text <;> rfl

variable (pool icons)

/-- A version is read as it was written, as far as the format keeps it. -/
theorem readVersion (orders : Orders) (id : EntryId) (parent : GroupId) (v : Nat × Version) (s : KeyStream) :
    ∃ x t, Version.toXml orders id v s = .ok (x, t) ∧ x.uuid = v.2.id ∧
      x.reread.toDb pool icons parent s = .ok ((v.2.write.read pool icons).settle parent, t) := by
  obtain ⟨xs, t, hwrite, hread⟩ := readFields v.2.fields (orders.fields id v.1) s
  refine ⟨{
    uuid := v.2.id
    iconId := (iconIds v.2.icon).1
    customIconUuid := (iconIds v.2.icon).2
    foregroundColor := v.2.foregroundColor
    backgroundColor := v.2.backgroundColor
    overrideUrl := v.2.overrideUrl
    tags := writeTags v.2.tags
    times := some v.2.times
    stringFields := xs
    binaryFields := v.2.attachments.items (orders.binaries id v.1)
    autoType := v.2.autotype
    customData := writeCustomData v.2.customData }, t, ?_, rfl, ?_⟩
  · rw [Version.toXml]
    dsimp only
    rw [hwrite]
    rfl
  · rw [XmlVersion.toDb]
    dsimp only [XmlVersion.reread]
    rw [hread]
    change Except.ok _ = Except.ok _
    have hattachments : ((v.2.attachments.items (orders.binaries id v.1)).filter fun f => f.2 ∈ pool).foldl
        (fun m f => m.insert f.1 f.2) ∅ = v.2.attachments.filterVals fun c => c ∈ pool :=
      Finmap.foldl_insert_filter_items _ _ fun c => decide (c ∈ pool)
    rw [readCustomData, readIconIds_iconIds, readTags_eq, hattachments]
    rfl

/-- An entry is read as it was written, with its history. -/
theorem readEntry (orders : Orders) {db : Database} {id : EntryId} {e : Entry} (he : db.entry id = some e)
    (s : KeyStream) : ∃ x t, entryToXml orders db id s = .ok (x, t) ∧ x.uuid = e.id ∧
      x.reread.toDb pool icons e.parent s = .ok ((e.write.read pool icons).settle, t) := by
  obtain ⟨x, t, hwrite, hid, hread⟩ := readVersion pool icons orders id e.parent (0, e.toVersion) s
  cases hhistory : e.history with
  | none =>
    refine ⟨⟨x, none⟩, t, ?_, hid, ?_⟩
    · rw [entryToXml, he]
      change (Version.toXml orders id (0, e.toVersion) s).bind _ = _
      rw [hwrite, Except.bind]
      dsimp only
      rw [hhistory]
      rfl
    · rw [XmlEntry.toDb]
      change (x.reread.toDb pool icons e.parent s).bind _ = _
      rw [hread, Except.bind, Entry.settle, Entry.read, Entry.write, hhistory]
      rfl
  | some history =>
    obtain ⟨xs, u, hwrites, hreads⟩ := Loop.mapThrough_read XmlVersion.reread
      (fun v : Nat × Version => (v.2.write.read pool icons).settle e.parent)
      (fun v s => by
        obtain ⟨y, t, hy, -, hy'⟩ := readVersion pool icons orders id e.parent v s
        exact ⟨y, t, hy, hy'⟩) ((history.zipIdx 1).map Prod.swap) t
    have hversions : ((history.zipIdx 1).map Prod.swap).map (fun v => (v.2.write.read pool icons).settle e.parent) =
        history.map fun v => (v.write.read pool icons).settle e.parent := by
      have hall := congrArg (List.map fun v => (Version.read pool icons v.write).settle e.parent)
        (List.zipIdx_map_fst 1 history)
      rw [List.map_map] at hall ⊢
      exact hall
    refine ⟨⟨x, some xs⟩, u, ?_, hid, ?_⟩
    · rw [entryToXml, he]
      change (Version.toXml orders id (0, e.toVersion) s).bind _ = _
      rw [hwrite, Except.bind]
      dsimp only
      rw [hhistory]
      change (Loop.mapThrough (Version.toXml orders id) ((history.zipIdx 1).map Prod.swap) t).bind _ = _
      rw [hwrites]
      rfl
    · rw [XmlEntry.toDb]
      change (x.reread.toDb pool icons e.parent s).bind _ = _
      rw [hread, Except.bind]
      change (Loop.mapThrough (XmlVersion.toDb pool icons e.parent) (xs.map XmlVersion.reread) t).bind _ = _
      rw [hreads, hversions, Entry.settle, Entry.read, Entry.write, hhistory]
      simp only [Option.map_some, Option.getD_some, List.map_map]
      rfl

end Keepass
