import Falach.Entry.Search
import Falach.Entry.Tags
import Falach.Lib.Pages
import Falach.Sync.Saving
/-!
# Listing entries

`entry list` of the command line. Each run opens the vault anew, so the map of the entries is walked in another order
each time, and the rows come in this order.
-/

namespace Falach.Cli

open Keepass Database

structure EntryListArgs where
  tags : List String := []
  includeExpired : Bool := false
  limit : Option Nat := none
  offset : Option Nat := none

structure EntryRow where
  uuid : Uuid
  title : String
  group : String
  tags : List String
  expired : Bool
deriving DecidableEq

/-- `usize::MAX`. -/
def usizeMax : Nat := 2 ^ 64 - 1

/-- `EntryView::expires`. -/
def expires (e : Entry) : Option NaiveDateTime := if e.times.expires.getD false then e.times.expiry else none

def isExpired (e : Entry) (now : NaiveDateTime) : Bool := (expires e).any (· ≤ now)

/-- The entry is left out of a list. -/
def isSkipped (filterTags : List Tag) (includeExpired : Bool) (now : NaiveDateTime) (e : Entry) : Bool :=
  (isExpired e now ∧ ¬ includeExpired) ∨ (filterTags ≠ [] ∧ ¬ filterTags.all (· ∈ tagsFromEntry e.tags))

def rowOf (id : EntryId) (e : Entry) (g : Group) (now : NaiveDateTime) : EntryRow where
  uuid := id
  title := fieldText e titleField
  group := g.name
  tags := (tagsFromEntry e.tags).map Tag.text
  expired := isExpired e now

/-- The loop over the entries. -/
def pushRow (db : Database) (filterTags : List Tag) (includeExpired : Bool) (now : NaiveDateTime) (rows : List EntryRow)
    (id : EntryId) : Except Fault (List EntryRow) := do
  let e ← expect (db.entry id)
  let g ← expect (db.group e.parent)
  if isSkipped filterTags includeExpired now e then return rows else return rows ++ [rowOf id e g now]

/-- `run_list`, of the vault in the file: what is printed. -/
def runList (ids : Enumeration Uuid) (now : NaiveDateTime) (file : KeePassFile) (args : EntryListArgs) :
    Except Fault (Except VaultError (List EntryRow)) :=
  let db := xmlToDb file
  match args.tags.mapM Tag.from with
  | .error e => .ok (.error e)
  | .ok filterTags => do
    let rows ← (ids.list db.entries.keys).foldlM (pushRow db filterTags args.includeExpired now) []
    return .ok ((rows.drop (args.offset.getD 0)).take (args.limit.getD usizeMax))

/-- The entries that a list has. -/
def listed (db : Database) (filterTags : List Tag) (includeExpired : Bool) (now : NaiveDateTime) : Finset Uuid :=
  db.entries.keys.filter fun id => (db.entry id).any fun e => ¬ isSkipped filterTags includeExpired now e

/-! ## One run -/

variable {ids : Enumeration Uuid} {now : NaiveDateTime} {file : KeePassFile} {db : Database} {args : EntryListArgs}
  {filterTags : List Tag} {includeExpired : Bool} {k : Nat}

theorem pushRow_eq {id : EntryId} {e : Entry} {g : Group} (he : db.entry id = some e) (hg : db.group e.parent = some g)
    (rows : List EntryRow) : pushRow db filterTags includeExpired now rows id =
      .ok (if isSkipped filterTags includeExpired now e then rows else rows ++ [rowOf id e g now]) := by
  simp only [pushRow, he, expect, bind, Except.bind, hg]
  split <;> rfl

/-- The rows of some of the entries come in their order. -/
theorem foldlM_pushRow (hl : Linked db) {l : List Uuid} (hmem : ∀ id ∈ l, id ∈ db.entries) (rows : List EntryRow) :
    ∃ rows', l.foldlM (pushRow db filterTags includeExpired now) rows = .ok rows' ∧
      rows'.map EntryRow.uuid = rows.map EntryRow.uuid ++ l.filter (· ∈ listed db filterTags includeExpired now) := by
  induction l generalizing rows with
  | nil => exact ⟨rows, rfl, (List.append_nil _).symm⟩
  | cons id l ih =>
    obtain ⟨e, he⟩ := (mem_entries db).1 (hmem id List.mem_cons_self)
    obtain ⟨g, hg⟩ := (mem_groups db).1 (hl.home he)
    have hlisted : id ∈ listed db filterTags includeExpired now ↔ isSkipped filterTags includeExpired now e =
      false := by
      simp [listed, he, Finmap.mem_keys.2 (hmem id List.mem_cons_self)]
    obtain ⟨rows', hrun, hrows⟩ := ih (fun id' hid' => hmem id' (List.mem_cons_of_mem id hid'))
      (if isSkipped filterTags includeExpired now e then rows else rows ++ [rowOf id e g now])
    refine ⟨rows', Loop.foldlM_cons_ok.2 ⟨_, pushRow_eq he hg rows, hrun⟩, hrows.trans ?_⟩
    rw [List.filter_cons]
    cases hskip : isSkipped filterTags includeExpired now e with
    | true => simp [hlisted, hskip]
    | false => simp [hlisted, hskip, rowOf]

/-- A run prints one page of the entries that are listed, in the order of the run. -/
theorem runList_page (hfile : Linked file.tree) (htags : args.tags.mapM Tag.from = .ok filterTags)
    {i : Nat} (hlimit : args.limit = some k) (hoffset : args.offset = some (i * k)) :
    ∃ rows, runList ids now file args = .ok (.ok rows) ∧ rows.map EntryRow.uuid =
      Pages.page k i ((ids.list (xmlToDb file).entries.keys).filter
        (· ∈ listed (xmlToDb file) filterTags args.includeExpired now)) := by
  have hl : Linked (xmlToDb file) := (sameTree_xmlToDb file).linkedBut hfile
  obtain ⟨rows, hrun, hrows⟩ : ∃ rows, (ids.list (xmlToDb file).entries.keys).foldlM
      (pushRow (xmlToDb file) filterTags args.includeExpired now) [] = .ok rows ∧ rows.map EntryRow.uuid =
        [] ++ (ids.list (xmlToDb file).entries.keys).filter
          (· ∈ listed (xmlToDb file) filterTags args.includeExpired now) :=
    foldlM_pushRow hl (fun id hid => Finmap.mem_keys.1 ((ids.mem_list _).1 hid)) []
  refine ⟨(rows.drop (i * k)).take k, ?_, ?_⟩
  · simp only [runList, htags, hrun, hlimit, hoffset, Option.getD_some]
    rfl
  · rw [List.map_take, List.map_drop, hrows]
    rfl

/-! ## Runs one after another -/

variable {tags : List String} {pages : Nat → List EntryRow} {times : Nat → NaiveDateTime}

theorem listed_congr {now' : NaiveDateTime}
    (h : ∀ id e, db.entry id = some e → isExpired e now = isExpired e now') :
    listed db filterTags includeExpired now = listed db filterTags includeExpired now' := by
  refine Finset.filter_congr fun id _ => ?_
  cases he : db.entry id with
  | none => rfl
  | some e => simp [isSkipped, h id e he]

/-- An order in which the members of a subset come as in a list of them. -/
theorem exists_order {s t : Finset Uuid} (hsub : t ⊆ s) {l : List Uuid} (hl : l.Perm (Enumeration.sorted.list t)) :
    ∃ ids : Enumeration Uuid, (ids.list s).filter (· ∈ t) = l := by
  have hmem {id : Uuid} : id ∈ l ↔ id ∈ t := hl.mem_iff.trans (Enumeration.sorted.mem_list t)
  have hnodup : l.Nodup := hl.nodup_iff.2 (Enumeration.sorted.nodup_list t)
  have hnodup' : (l ++ Enumeration.sorted.list (s \ t)).Nodup := by
    refine hnodup.append (Enumeration.sorted.nodup_list _) fun id hid hid' => ?_
    exact (Finset.mem_sdiff.1 ((Enumeration.sorted.mem_list _).1 hid')).2 (hmem.1 hid)
  have hlist : ((l ++ Enumeration.sorted.list (s \ t) : List Uuid) : Multiset Uuid) = s.val := by
    refine (Multiset.Nodup.ext (Multiset.coe_nodup.2 hnodup') s.nodup).2 fun id => ?_
    rw [Multiset.mem_coe, List.mem_append, hmem, Enumeration.sorted.mem_list, Finset.mem_sdiff, Finset.mem_val]
    exact ⟨fun h => h.elim (fun ht => hsub ht) And.left, fun hs => (em (id ∈ t)).imp_right fun ht => ⟨hs, ht⟩⟩
  refine ⟨⟨fun u => if u = s then l ++ Enumeration.sorted.list (s \ t) else Enumeration.sorted.list u, fun u => ?_⟩, ?_⟩
  · split
    · rename_i hu
      rw [hu, hlist]
    · exact Enumeration.sorted.perm u
  · have hkept : l.filter (· ∈ t) = l := List.filter_eq_self.2 fun id hid => decide_eq_true (hmem.1 hid)
    have hnone : (Enumeration.sorted.list (s \ t)).filter (· ∈ t) = [] := by
      refine List.filter_eq_nil_iff.2 fun id hid hin => ?_
      exact (Finset.mem_sdiff.1 ((Enumeration.sorted.mem_list _).1 hid)).2 (of_decide_eq_true hin)
    simp only [if_true, List.filter_append, hkept, hnone, List.append_nil]

/-- The runs print pages of the listed entries, each in an order of its own. -/
theorem runList_pages (hfile : Linked file.tree) (htags : tags.mapM Tag.from = .ok filterTags)
    (htimes : ∀ i id e, (xmlToDb file).entry id = some e → isExpired e (times i) = isExpired e (times 0))
    (ids : Nat → Enumeration Uuid) : ∃ pages : Nat → List EntryRow,
      (∀ i, runList (ids i) (times i) file { tags, includeExpired, limit := some k, offset := some (i * k) } =
        .ok (.ok (pages i))) ∧
      (fun i => (pages i).map EntryRow.uuid) = fun i => Pages.page k i
        (((ids i).list (xmlToDb file).entries.keys).filter
          (· ∈ listed (xmlToDb file) filterTags includeExpired (times 0))) := by
  have hrun (i : Nat) : ∃ rows,
      runList (ids i) (times i) file { tags, includeExpired, limit := some k, offset := some (i * k) } =
        .ok (.ok rows) ∧
      rows.map EntryRow.uuid = Pages.page k i (((ids i).list (xmlToDb file).entries.keys).filter
        (· ∈ listed (xmlToDb file) filterTags includeExpired (times i))) :=
    runList_page hfile htags rfl rfl
  choose pages hpages huuids using hrun
  refine ⟨pages, hpages, funext fun i => ?_⟩
  rw [huuids i, listed_congr (htimes i)]

/-- Where all runs walk the entries in one order, the pages have every listed entry once. -/
theorem list_pages_same_order (hfile : Linked file.tree) (htags : tags.mapM Tag.from = .ok filterTags) (hk : 0 < k)
    (htimes : ∀ i id e, (xmlToDb file).entry id = some e → isExpired e (times i) = isExpired e (times 0)) :
    ∃ pages : Nat → List EntryRow,
      (∀ i, runList ids (times i) file { tags, includeExpired, limit := some k, offset := some (i * k) } =
        .ok (.ok (pages i))) ∧
      ∀ uuid ∈ listed (xmlToDb file) filterTags includeExpired (times 0),
        Pages.Once (fun i => (pages i).map EntryRow.uuid) uuid := by
  obtain ⟨pages, hpages, huuids⟩ := runList_pages hfile htags htimes fun _ => ids
  refine ⟨pages, hpages, fun uuid huuid => ?_⟩
  rw [huuids]
  refine Pages.once_of_same hk ((ids.nodup_list _).filter _) (List.mem_filter.2 ⟨?_, decide_eq_true huuid⟩)
  exact (ids.mem_list _).2 (Finset.mem_filter.1 huuid).1

/-- Each run may walk the entries in an order of its own. Then the pages of the runs have every listed entry once, in
all orders, if and only if all of them fit on one page. -/
theorem list_pages_iff (hfile : Linked file.tree) (htags : tags.mapM Tag.from = .ok filterTags) (hk : 0 < k)
    (htimes : ∀ i id e, (xmlToDb file).entry id = some e → isExpired e (times i) = isExpired e (times 0)) :
    (∀ ids : Nat → Enumeration Uuid, ∃ pages : Nat → List EntryRow,
      (∀ i, runList (ids i) (times i) file { tags, includeExpired, limit := some k, offset := some (i * k) } =
        .ok (.ok (pages i))) ∧
      ∀ uuid ∈ listed (xmlToDb file) filterTags includeExpired (times 0),
        Pages.Once (fun i => (pages i).map EntryRow.uuid) uuid) ↔
    (listed (xmlToDb file) filterTags includeExpired (times 0)).card ≤ k := by
  rw [← Enumeration.sorted.length_list,
    ← Pages.forall_once_iff hk (Enumeration.sorted.nodup_list
      (listed (xmlToDb file) filterTags includeExpired (times 0)))]
  constructor
  · intro hall lists hperm uuid huuid
    have horder (i : Nat) : ∃ ids : Enumeration Uuid, (ids.list (xmlToDb file).entries.keys).filter
        (· ∈ listed (xmlToDb file) filterTags includeExpired (times 0)) = lists i :=
      exists_order (Finset.filter_subset _ _) (hperm i)
    choose ids hids using horder
    obtain ⟨pages, hpages, honce⟩ := hall ids
    obtain ⟨pages', hpages', huuids⟩ := runList_pages hfile htags htimes ids
    have hsame : pages = pages' := by
      funext i
      exact Except.ok.inj (Except.ok.inj ((hpages i).symm.trans (hpages' i)))
    have hplace := honce uuid ((Enumeration.sorted.mem_list _).1 huuid)
    rw [hsame, huuids] at hplace
    simpa only [hids] using hplace
  · intro hall ids
    obtain ⟨pages, hpages, huuids⟩ := runList_pages hfile htags htimes ids
    refine ⟨pages, hpages, fun uuid huuid => ?_⟩
    rw [huuids]
    refine hall _ (fun i => ?_) uuid ((Enumeration.sorted.mem_list _).2 huuid)
    refine (List.perm_ext_iff_of_nodup (((ids i).nodup_list _).filter _) (Enumeration.sorted.nodup_list _)).2
      fun id => ?_
    rw [List.mem_filter, (ids i).mem_list, Enumeration.sorted.mem_list, decide_eq_true_eq]
    exact and_iff_right_of_imp fun hid => (Finset.mem_filter.1 hid).1

/-! A file with two entries. -/

def twoEntries : KeePassFile where
  tree := {
    config := { kdfConfig := .aes 1 }
    root := 1
    entries := (Finmap.singleton 5 { id := 5, parent := 1 }).insert 6 { id := 6, parent := 1 }
    groups := Finmap.singleton 1 { id := 1, parent := none, entries := {5, 6} } }
  headerAttachments := []

/-- The largest first. -/
def reversed : Enumeration Uuid where
  list s := (Enumeration.sorted.list s).reverse
  perm s := (Multiset.coe_eq_coe.2 (List.reverse_perm _)).trans (Enumeration.sorted.perm s)

theorem list_pages_iff_both : (listed (xmlToDb twoEntries) [] false 0).card ≤ 2 ∧
    ∀ ids : Nat → Enumeration Uuid, ∃ pages : Nat → List EntryRow,
      (∀ i, runList (ids i) 0 twoEntries { limit := some 2, offset := some (i * 2) } = .ok (.ok (pages i))) ∧
      ∀ uuid ∈ listed (xmlToDb twoEntries) [] false 0, Pages.Once (fun i => (pages i).map EntryRow.uuid) uuid := by
  have hfile : Linked twoEntries.tree := CheckedLinks.linked (by decide +kernel)
  have hshort : (listed (xmlToDb twoEntries) [] false 0).card ≤ 2 := by decide +kernel
  refine ⟨hshort, ?_⟩
  exact (@list_pages_iff twoEntries [] false 2 [] (fun _ => 0) hfile rfl Nat.two_pos fun _ _ _ _ => rfl).2 hshort

/-- In pages of one entry, the second run may print the entry of the first again. -/
theorem second_page_repeats : ¬ ∀ ids : Nat → Enumeration Uuid, ∃ pages : Nat → List EntryRow,
    (∀ i, runList (ids i) 0 twoEntries { limit := some 1, offset := some (i * 1) } = .ok (.ok (pages i))) ∧
    ∀ uuid ∈ listed (xmlToDb twoEntries) [] false 0, Pages.Once (fun i => (pages i).map EntryRow.uuid) uuid := by
  intro hall
  obtain ⟨pages, hpages, honce⟩ := hall fun i => if i = 1 then reversed else .sorted
  have hfirst : runList .sorted 0 twoEntries { limit := some 1, offset := some (0 * 1) } =
      .ok (.ok [⟨5, "", "", [], false⟩]) := by decide +kernel
  have hsecond : runList reversed 0 twoEntries { limit := some 1, offset := some (1 * 1) } =
      .ok (.ok [⟨5, "", "", [], false⟩]) := by decide +kernel
  have h0 : pages 0 = [⟨5, "", "", [], false⟩] := Except.ok.inj (Except.ok.inj ((hpages 0).symm.trans hfirst))
  have h1 : pages 1 = [⟨5, "", "", [], false⟩] := Except.ok.inj (Except.ok.inj ((hpages 1).symm.trans hsecond))
  obtain ⟨place, -, hunique⟩ := honce 5 (by decide +kernel)
  have first := hunique (0, 0) (by simp [h0])
  have second := hunique (1, 0) (by simp [h1])
  cases first.trans second.symm

end Falach.Cli
