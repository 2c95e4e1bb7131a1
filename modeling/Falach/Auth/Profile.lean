import Falach.Auth.RstCred1
import Falach.Lib.Lines
/-!
# Profiles of a credentials file

What is resolved for a profile is read between its header and the next line that the parser takes for a header. A line
that begins with a bracket and does not end with one is none, so what follows it is still read for the profile.
-/

namespace Falach.Auth

open Keepass

structure ResolvedCredentials where
  accessKeyId : Text
  secretAccessKey : Text
  sessionToken : Option Text
  expiry : Option Nat
deriving DecidableEq

namespace Profile

/-- `strip_prefix('[')`, then `strip_suffix(']')`. -/
def headerName : Text → Option Text
  | '[' :: rest => if rest.getLast? = some ']' then some rest.dropLast else none
  | _ => none

/-- The loop of `find_section`. -/
def findSectionLoop (target : Text) : (inTarget : Bool) → (body : Text) → List Text → Option Text
  | inTarget, body, [] => if inTarget then some body else none
  | inTarget, body, line :: rest =>
    let header := ['['] ++ target ++ [']']
    let trimmed := line.trim
    match headerName trimmed with
    | some name =>
      if inTarget then some body
      else if name = target ∨ header = trimmed then findSectionLoop target true body rest
      else findSectionLoop target inTarget body rest
    | none =>
      if inTarget then findSectionLoop target inTarget (body ++ line ++ ['\n']) rest
      else findSectionLoop target inTarget body rest

def findSection (contents target : Text) : Option Text := findSectionLoop target false [] contents.lines

/-- The loop of `get_optional_key`. -/
def lookup (key : Text) : List Text → Option Text
  | [] => none
  | line :: rest =>
    let trimmed := line.trim
    if trimmed = [] ∨ trimmed.head? = some '#' ∨ trimmed.head? = some ';' then lookup key rest
    else match Text.splitOnce ['='] trimmed with
      | some (k, v) => if k.trim = key then some v.trim else lookup key rest
      | none => lookup key rest

def getOptionalKey (profileSection key : Text) : Option Text := lookup key profileSection.lines

def getRequiredKey (profileSection key profile : Text) : Except AuthError Text :=
  (getOptionalKey profileSection key).elim (.error (.awsProfileMissingKey profile key)) .ok

def accessKeyIdKey : Text := "aws_access_key_id".toList
def secretAccessKeyKey : Text := "aws_secret_access_key".toList
def sessionTokenKey : Text := "aws_session_token".toList

/-- `PathBuf::push` of a relative part. -/
def push (path part : Text) : Text :=
  if path = [] ∨ path.getLast? = some '/' then path ++ part else path ++ ['/'] ++ part

def defaultCredentialsPath (home : Option Text) : Except AuthError Text :=
  ((home.filter fun s => s ≠ []).map fun s => push (push s ".aws".toList) "credentials".toList).elim
    (.error .homeUnresolvable) .ok

/-- The credentials of a profile, from the text of the file. -/
def fromContents (contents profile path : Text) : Except AuthError ResolvedCredentials := do
  let profileSection ← (findSection contents profile).elim (.error (.awsProfileNotFound profile path)) .ok
  let accessKeyId ← getRequiredKey profileSection accessKeyIdKey profile
  let secretAccessKey ← getRequiredKey profileSection secretAccessKeyKey profile
  return ⟨accessKeyId, secretAccessKey, getOptionalKey profileSection sessionTokenKey, none⟩

/-- `files` says of a path that nothing is there, or what reading it gives. -/
def resolveProfile (home : Option Text) (files : Text → Option (Except Text Text)) (profile : Text)
    (credentialsFile : Option Text) : Except AuthError ResolvedCredentials := do
  let path ← credentialsFile.elim (defaultCredentialsPath home) .ok
  let read ← (files path).elim (.error (.awsCredentialsFileNotFound path)) .ok
  let contents ← read.mapError fun source => .awsCredentialsFileReadFailed path source
  fromContents contents profile path

/-- The value resolved for a key. -/
def resolvedKey (contents profile key : Text) : Option Text :=
  (findSection contents profile).bind fun profileSection => getOptionalKey profileSection key

/-! ## What a profile has -/

/-- The line begins with a bracket. -/
def Bracketed (line : Text) : Prop := line.trim.head? = some '['

/-- The line is the header of the profile. -/
def HeaderOf (profile line : Text) : Prop := line.trim = ['['] ++ profile ++ [']']

instance (line : Text) : Decidable (Bracketed line) := inferInstanceAs (Decidable (_ = _))
instance (profile line : Text) : Decidable (HeaderOf profile line) := inferInstanceAs (Decidable (_ = _))

/-- The line is `key = value`, and no comment. -/
def Assigns (key value line : Text) : Prop :=
  line.trim.head? ≠ some '#' ∧ line.trim.head? ≠ some ';' ∧
    ∃ before after, line.trim = before ++ '=' :: after ∧ '=' ∉ before ∧ before.trim = key ∧ Text.trim after = value

/-- The value is that of the first line for the key after the first header of the profile, and neither this line nor
one between is a boundary. -/
def FirstLine (boundary : Text → Prop) (contents profile key value : Text) : Prop :=
  ∃ earlier header between line later,
    contents.lines = earlier ++ header :: (between ++ line :: later) ∧
    (∀ l ∈ earlier, ¬ HeaderOf profile l) ∧ HeaderOf profile header ∧
    (∀ l ∈ between ++ [line], ¬ boundary l) ∧ (∀ l ∈ between, ∀ v, ¬ Assigns key v l) ∧ Assigns key value line

/-- The profile has the value: its lines end before the next line that begins with a bracket. -/
def Has (contents profile key value : Text) : Prop := FirstLine Bracketed contents profile key value

/-- Between the first header of the profile and the first line for the key there is no other header, but a line that
begins with a bracket. -/
def Leaks (contents profile key : Text) : Prop :=
  ∃ earlier header between line later value,
    contents.lines = earlier ++ header :: (between ++ line :: later) ∧
    (∀ l ∈ earlier, ¬ HeaderOf profile l) ∧ HeaderOf profile header ∧
    (∀ l ∈ between ++ [line], ∀ name, ¬ HeaderOf name l) ∧ (∃ l ∈ between ++ [line], Bracketed l) ∧
    (∀ l ∈ between, ∀ v, ¬ Assigns key v l) ∧ Assigns key value line

variable {contents profile key value line : Text} {ls rest : List Text}

theorem headerName_eq_some_iff {trimmed name : Text} : headerName trimmed = some name ↔
    trimmed = ['['] ++ name ++ [']'] := by
  unfold headerName
  split
  · rename_i rest
    constructor
    · intro h
      obtain ⟨hlast, h⟩ := Option.ite_none_right_eq_some.1 h
      cases h
      obtain ⟨start, rfl⟩ := List.getLast?_eq_some_iff.1 hlast
      rw [List.dropLast_concat]
      rfl
    · intro h
      obtain rfl : rest = name ++ [']'] := List.tail_eq_of_cons_eq h
      rw [List.getLast?_concat, List.dropLast_concat, if_pos rfl]
  · rename_i hother
    constructor
    · intro h
      cases h
    · exact fun h => absurd h (hother _)

theorem headerName_isSome_iff : (headerName line.trim).isSome = true ↔ ∃ name, HeaderOf name line := by
  rw [Option.isSome_iff_exists]
  exact exists_congr fun name => headerName_eq_some_iff

theorem HeaderOf.bracketed (h : HeaderOf profile line) : Bracketed line := by
  rw [Bracketed, h]
  rfl

/-- The lines up to the next header. -/
def sectionLines (ls : List Text) : List Text := ls.takeWhile fun line => headerName line.trim = none

theorem findSectionLoop_inside (target body : Text) (ls : List Text) :
    findSectionLoop target true body ls = some (body ++ Text.unlines (sectionLines ls)) := by
  induction ls generalizing body with
  | nil => simp [findSectionLoop, sectionLines, Text.unlines]
  | cons line ls ih =>
    cases hname : headerName line.trim with
    | some name =>
      have hstop : sectionLines (line :: ls) = [] := List.takeWhile_cons_of_neg (by simp [hname])
      simp [findSectionLoop, hname, hstop, Text.unlines]
    | none =>
      have hgo : sectionLines (line :: ls) = line :: sectionLines ls := List.takeWhile_cons_of_pos (by simp [hname])
      simp only [findSectionLoop, hname, if_true, ih, hgo]
      simp [Text.unlines]

/-- Nothing is taken before the header of the profile. -/
theorem findSectionLoop_outside (hline : ¬ HeaderOf profile line) :
    findSectionLoop profile false [] (line :: ls) = findSectionLoop profile false [] ls := by
  cases hname : headerName line.trim with
  | none => simp only [findSectionLoop, hname, Bool.false_eq_true, if_false]
  | some name =>
    have htrim := headerName_eq_some_iff.1 hname
    have hother : name ≠ profile := fun h => hline (h ▸ htrim)
    have hheader : ['['] ++ profile ++ [']'] ≠ line.trim := fun h => hline h.symm
    simp only [findSectionLoop, hname, Bool.false_eq_true, if_false, if_neg (not_or.2 ⟨hother, hheader⟩)]

theorem findSectionLoop_header (hline : HeaderOf profile line) :
    findSectionLoop profile false [] (line :: ls) = some (Text.unlines (sectionLines ls)) := by
  have hname := headerName_eq_some_iff.2 hline
  simp only [findSectionLoop, hname, Bool.false_eq_true, if_false, true_or, if_true, findSectionLoop_inside,
    List.nil_append]

theorem findSection_eq_some_iff {body : Text} :
    findSection contents profile = some body ↔ ∃ earlier header rest, contents.lines = earlier ++ header :: rest ∧
      (∀ l ∈ earlier, ¬ HeaderOf profile l) ∧ HeaderOf profile header ∧ body = Text.unlines (sectionLines rest) := by
  unfold findSection
  generalize contents.lines = ls
  constructor
  · intro h
    induction ls with
    | nil => cases h
    | cons line ls ih =>
      by_cases hline : HeaderOf profile line
      · rw [findSectionLoop_header hline] at h
        exact ⟨[], line, ls, rfl, fun l hl => absurd hl List.not_mem_nil, hline, (Option.some.inj h).symm⟩
      · rw [findSectionLoop_outside hline] at h
        obtain ⟨earlier, header, rest, rfl, hearlier, hrest⟩ := ih h
        exact ⟨line :: earlier, header, rest, rfl, List.forall_mem_cons.2 ⟨hline, hearlier⟩, hrest⟩
  · rintro ⟨earlier, header, rest, rfl, hearlier, hheader, rfl⟩
    induction earlier with
    | nil => exact findSectionLoop_header hheader
    | cons line earlier ih =>
      obtain ⟨hline, hearlier⟩ := List.forall_mem_cons.1 hearlier
      rw [List.cons_append, findSectionLoop_outside hline]
      exact ih hearlier

/-! ## Lines for a key -/

theorem Assigns.lookup_eq (h : Assigns key value line) : lookup key (line :: rest) = some value := by
  obtain ⟨hhash, hsemi, before, after, htrim, hbefore, hkey, hvalue⟩ := h
  have hne : line.trim ≠ [] := by simp [htrim]
  have hsplit : Text.splitOnce ['='] line.trim = some (before, after) := by
    rw [htrim, Text.splitOnce_append_cons hbefore]
  simp only [lookup, hne, hhash, hsemi, or_self, if_false, hsplit, hkey, if_true, hvalue]

theorem lookup_skip (h : ∀ v, ¬ Assigns key v line) : lookup key (line :: rest) = lookup key rest := by
  simp only [lookup]
  split
  · rfl
  · rename_i hcomment
    obtain ⟨-, hhash, hsemi⟩ : line.trim ≠ [] ∧ line.trim.head? ≠ some '#' ∧ line.trim.head? ≠ some ';' := by
      simpa only [not_or] using hcomment
    split
    · rename_i before after hsplit
      have htrim : line.trim = before ++ '=' :: after := by simpa using Text.splitOnce_eq hsplit
      have hkey : before.trim ≠ key := fun hkey =>
        h (Text.trim after) ⟨hhash, hsemi, before, after, htrim, Text.splitOnce_notMem hsplit, hkey, rfl⟩
      rw [if_neg hkey]
    · rfl

theorem lookup_eq_some_iff : lookup key ls = some value ↔ ∃ between line later, ls = between ++ line :: later ∧
    (∀ l ∈ between, ∀ v, ¬ Assigns key v l) ∧ Assigns key value line := by
  constructor
  · intro h
    induction ls with
    | nil => cases h
    | cons line ls ih =>
      by_cases hline : ∃ v, Assigns key v line
      · obtain ⟨v, hv⟩ := hline
        rw [hv.lookup_eq] at h
        exact ⟨[], line, ls, rfl, fun l hl => absurd hl List.not_mem_nil, Option.some.inj h ▸ hv⟩
      · have hnone := not_exists.1 hline
        rw [lookup_skip hnone] at h
        obtain ⟨between, found, later, rfl, hbetween, hfound⟩ := ih h
        exact ⟨line :: between, found, later, rfl, List.forall_mem_cons.2 ⟨hnone, hbetween⟩, hfound⟩
  · rintro ⟨between, line, later, rfl, hbetween, hline⟩
    induction between with
    | nil => exact hline.lookup_eq
    | cons first between ih =>
      obtain ⟨hfirst, hbetween⟩ := List.forall_mem_cons.1 hbetween
      rw [List.cons_append, lookup_skip hfirst]
      exact ih hbetween

theorem Assigns.of_lookup (h : lookup key [line] = some value) : Assigns key value line := by
  obtain ⟨between, found, later, hlines, hbetween, hfound⟩ := lookup_eq_some_iff.1 h
  obtain rfl : found = line := List.mem_singleton.1 (hlines ▸ by simp)
  exact hfound

theorem not_assigns_of_lookup (h : lookup key ls = none) : ∀ l ∈ ls, ∀ v, ¬ Assigns key v l := by
  induction ls with
  | nil => exact fun l hl => absurd hl List.not_mem_nil
  | cons line ls ih =>
    have hline : ∀ v, ¬ Assigns key v line := fun v hv => by
      rw [hv.lookup_eq] at h
      cases h
    rw [lookup_skip hline] at h
    exact List.forall_mem_cons.2 ⟨hline, ih h⟩

theorem lookup_dropCr (key : Text) (ls : List Text) : lookup key (ls.map Text.dropCr) = lookup key ls := by
  induction ls with
  | nil => rfl
  | cons line ls ih => simp only [List.map_cons, lookup, Text.trim_dropCr, ih]

theorem lookup_sectionLines : lookup key (sectionLines rest) = some value ↔ ∃ between line later,
    rest = between ++ line :: later ∧ (∀ l ∈ between ++ [line], ¬ ∃ name, HeaderOf name l) ∧
    (∀ l ∈ between, ∀ v, ¬ Assigns key v l) ∧ Assigns key value line := by
  have hinside {l : Text} : decide (headerName l.trim = none) = true ↔ ¬ ∃ name, HeaderOf name l := by
    rw [← headerName_isSome_iff, decide_eq_true_eq, Option.not_isSome_iff_eq_none]
  rw [lookup_eq_some_iff]
  constructor
  · rintro ⟨between, line, later, hlines, hbetween, hline⟩
    refine ⟨between, line, later ++ rest.dropWhile fun l => headerName l.trim = none, ?_, fun l hl => hinside.1 ?_,
      hbetween, hline⟩
    · rw [← List.cons_append, ← List.append_assoc, ← hlines]
      exact (List.takeWhile_append_dropWhile).symm
    · have hmem : l ∈ between ++ [line] ++ later := List.mem_append_left later hl
      rw [List.append_assoc, List.singleton_append, ← hlines, sectionLines] at hmem
      have hname := List.mem_takeWhile_imp hmem
      exact hname
  · rintro ⟨between, line, later, rfl, hinner, hbetween, hline⟩
    refine ⟨between, line, sectionLines later, ?_, hbetween, hline⟩
    have htake : sectionLines (between ++ [line] ++ later) = between ++ [line] ++ sectionLines later :=
      List.takeWhile_append_of_pos fun l hl => hinside.2 (hinner l hl)
    rw [List.append_assoc, List.singleton_append, List.append_assoc, List.singleton_append] at htake
    exact htake

/-- What is read for a profile ends before the next header. -/
theorem resolvedKey_eq_some_iff : resolvedKey contents profile key = some value ↔
    FirstLine (fun l => ∃ name, HeaderOf name l) contents profile key value := by
  have hread {earlier rest : List Text} {header : Text} (hlines : contents.lines = earlier ++ header :: rest) :
      getOptionalKey (Text.unlines (sectionLines rest)) key = lookup key (sectionLines rest) := by
    have hfree : ∀ l ∈ sectionLines rest, '\n' ∉ l := fun l hl => by
      refine Text.newline_notMem (s := contents) ?_
      rw [hlines]
      exact List.mem_append_right _ (List.mem_cons_of_mem _ (List.takeWhile_subset _ hl))
    rw [getOptionalKey, Text.lines_unlines hfree, lookup_dropCr]
  rw [resolvedKey, Option.bind_eq_some_iff]
  constructor
  · rintro ⟨body, hbody, hvalue⟩
    obtain ⟨earlier, header, rest, hlines, hearlier, hheader, rfl⟩ := findSection_eq_some_iff.1 hbody
    rw [hread hlines] at hvalue
    obtain ⟨between, line, later, rfl, hinside, hbetween, hline⟩ := lookup_sectionLines.1 hvalue
    exact ⟨earlier, header, between, line, later, hlines, hearlier, hheader, hinside, hbetween, hline⟩
  · rintro ⟨earlier, header, between, line, later, hlines, hearlier, hheader, hinside, hbetween, hline⟩
    refine ⟨_, findSection_eq_some_iff.2 ⟨earlier, header, _, hlines, hearlier, hheader, rfl⟩, ?_⟩
    rw [hread hlines]
    exact lookup_sectionLines.2 ⟨between, line, later, rfl, hinside, hbetween, hline⟩

/-- What leaks into a profile is read for it, and the profile does not have it. -/
theorem Leaks.not_has (h : Leaks contents profile key) :
    ∃ value, resolvedKey contents profile key = some value ∧ ∀ v, ¬ Has contents profile key v := by
  obtain ⟨earlier, header, between, line, later, value, hlines, hearlier, hheader, hinside, ⟨l, hl, hbracket⟩,
    hbetween, hline⟩ := h
  refine ⟨value, resolvedKey_eq_some_iff.2 ⟨earlier, header, between, line, later, hlines, hearlier, hheader, ?_,
    hbetween, hline⟩, ?_⟩
  · exact fun l hl => not_exists.2 (hinside l hl)
  · rintro v ⟨earlier', header', between', line', later', hlines', hearlier', hheader', hinside', hbetween', hline'⟩
    obtain ⟨-, -, hrest⟩ := Text.first_unique (hlines.symm.trans hlines') hearlier hheader hearlier' hheader'
    have hfree {bs : List Text} (hbs : ∀ l ∈ bs, ∀ v, ¬ Assigns key v l) : ∀ l ∈ bs, ¬ ∃ v, Assigns key v l :=
      fun l hl => not_exists.2 (hbs l hl)
    obtain ⟨rfl, rfl, -⟩ := Text.first_unique hrest (hfree hbetween) ⟨value, hline⟩ (hfree hbetween') ⟨v, hline'⟩
    exact hinside' l hl hbracket

theorem Has.resolvedKey_eq (h : Has contents profile key value) : resolvedKey contents profile key = some value := by
  obtain ⟨earlier, header, between, line, later, hlines, hearlier, hheader, hinside, hbetween, hline⟩ := h
  refine resolvedKey_eq_some_iff.2 ⟨earlier, header, between, line, later, hlines, hearlier, hheader, ?_, hbetween,
    hline⟩
  rintro l hl ⟨name, hname⟩
  exact hinside l hl hname.bracketed

theorem has_of_not_leaks (hleaks : ¬ Leaks contents profile key) (h : resolvedKey contents profile key = some value) :
    Has contents profile key value := by
  obtain ⟨earlier, header, between, line, later, hlines, hearlier, hheader, hinside, hbetween, hline⟩ :=
    resolvedKey_eq_some_iff.1 h
  refine ⟨earlier, header, between, line, later, hlines, hearlier, hheader, fun l hl hbracket => hleaks ?_,
    hbetween, hline⟩
  exact ⟨earlier, header, between, line, later, value, hlines, hearlier, hheader,
    fun l hl => not_exists.1 (hinside l hl), ⟨l, hl, hbracket⟩, hbetween, hline⟩

theorem getRequiredKey_eq_ok_iff {profileSection : Text} :
    getRequiredKey profileSection key profile = .ok value ↔ getOptionalKey profileSection key = some value := by
  unfold getRequiredKey
  cases getOptionalKey profileSection key <;> simp

/-- The credentials of a profile are the values resolved for their keys. -/
theorem fromContents_eq_ok_iff {path : Text} {creds : ResolvedCredentials} :
    fromContents contents profile path = .ok creds ↔
    resolvedKey contents profile accessKeyIdKey = some creds.accessKeyId ∧
    resolvedKey contents profile secretAccessKeyKey = some creds.secretAccessKey ∧
    resolvedKey contents profile sessionTokenKey = creds.sessionToken ∧ creds.expiry = none := by
  unfold fromContents resolvedKey
  cases findSection contents profile with
  | none =>
    constructor
    · rintro ⟨⟩
    · rintro ⟨⟨⟩, -⟩
  | some profileSection =>
    simp only [Option.elim_some, Loop.bind_ok, Except.ok.injEq, exists_eq_left', getRequiredKey_eq_ok_iff,
      Option.bind_some]
    constructor
    · rintro ⟨accessKeyId, haccess, secretAccessKey, hsecret, hcreds⟩
      cases hcreds
      exact ⟨haccess, hsecret, rfl, rfl⟩
    · rintro ⟨haccess, hsecret, htoken, hexpiry⟩
      refine ⟨creds.accessKeyId, haccess, creds.secretAccessKey, hsecret, ?_⟩
      rw [htoken, ← hexpiry]
      rfl

/-- The credentials come from the text of the file that is named, or of the one in the home directory. -/
theorem resolveProfile_eq_ok_iff {home credentialsFile : Option Text} {files : Text → Option (Except Text Text)}
    {creds : ResolvedCredentials} : resolveProfile home files profile credentialsFile = .ok creds ↔
    ∃ path contents, credentialsFile.elim (defaultCredentialsPath home) .ok = .ok path ∧
      files path = some (.ok contents) ∧
      fromContents contents profile path = .ok creds := by
  unfold resolveProfile
  simp only [Loop.bind_ok]
  refine exists_congr fun path => ?_
  constructor
  · rintro ⟨hpath, read, hread, contents, hcontents, hcreds⟩
    cases hfile : files path with
    | none => rw [hfile] at hread; cases hread
    | some file =>
      rw [hfile] at hread
      cases hread
      cases read with
      | error source => cases hcontents
      | ok contents => cases hcontents; exact ⟨contents, hpath, rfl, hcreds⟩
  · rintro ⟨contents, hpath, hfile, hcreds⟩
    refine ⟨hpath, .ok contents, ?_, contents, rfl, hcreds⟩
    rw [hfile]
    rfl

/-- The values resolved for a profile are its own, and its credentials are made of them, just if nothing leaks into
it. -/
theorem profile_isolated_iff (contents profile key : Text) :
    ((∀ value, resolvedKey contents profile key = some value ↔ Has contents profile key value) ↔
      ¬ Leaks contents profile key) ∧
    ∀ path creds, fromContents contents profile path = .ok creds ↔
      resolvedKey contents profile accessKeyIdKey = some creds.accessKeyId ∧
      resolvedKey contents profile secretAccessKeyKey = some creds.secretAccessKey ∧
      resolvedKey contents profile sessionTokenKey = creds.sessionToken ∧ creds.expiry = none := by
  refine ⟨⟨fun h hleaks => ?_, fun hleaks value => ⟨fun h => ?_, fun h => ?_⟩⟩, fun path creds =>
    fromContents_eq_ok_iff⟩
  · obtain ⟨value, hvalue, hnot⟩ := hleaks.not_has
    exact hnot value ((h value).1 hvalue)
  · exact has_of_not_leaks hleaks h
  · exact h.resolvedKey_eq

/-- A profile without a secret, and another one with a remark after its header. -/
def remarked : Text :=
  Text.unlines ["[work]".toList, "aws_access_key_id = AKIAWORK".toList, [], "[other] ; personal".toList,
    "aws_secret_access_key = SHOULD_NOT_LEAK_SECRET".toList]

/-- The secret of the other profile is read for the one without. -/
theorem other_secret_leaks :
    fromContents remarked "work".toList "credentials".toList =
      .ok ⟨"AKIAWORK".toList, "SHOULD_NOT_LEAK_SECRET".toList, none, none⟩ ∧
    resolvedKey remarked "work".toList secretAccessKeyKey = some "SHOULD_NOT_LEAK_SECRET".toList ∧
    ∀ value, ¬ Has remarked "work".toList secretAccessKeyKey value := by
  have hcreds : fromContents remarked "work".toList "credentials".toList =
      .ok ⟨"AKIAWORK".toList, "SHOULD_NOT_LEAK_SECRET".toList, none, none⟩ := by decide +kernel
  have hleaks : Leaks remarked "work".toList secretAccessKeyKey := by
    refine ⟨[], "[work]".toList, ["aws_access_key_id = AKIAWORK".toList, [], "[other] ; personal".toList],
      "aws_secret_access_key = SHOULD_NOT_LEAK_SECRET".toList, [], "SHOULD_NOT_LEAK_SECRET".toList, by decide +kernel,
      fun l hl => absurd hl List.not_mem_nil, by decide +kernel, ?_, ?_, not_assigns_of_lookup (by decide +kernel),
      Assigns.of_lookup (by decide +kernel)⟩
    · have hnone : ["aws_access_key_id = AKIAWORK".toList, [], "[other] ; personal".toList,
          "aws_secret_access_key = SHOULD_NOT_LEAK_SECRET".toList].all fun l =>
            (headerName (Text.trim l)).isNone := by decide +kernel
      intro l hl name hname
      have hl := List.all_eq_true.1 hnone l hl
      rw [headerName_eq_some_iff.2 hname] at hl
      cases hl
    · exact ⟨"[other] ; personal".toList, by simp, by decide +kernel⟩
  obtain ⟨value, -, hnot⟩ := hleaks.not_has
  exact ⟨hcreds, (fromContents_eq_ok_iff.1 hcreds).2.1, hnot⟩

end Profile

end Falach.Auth
