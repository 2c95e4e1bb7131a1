import Falach.Tui.EditForm
import Falach.Tui.KeyGrammar
/-!
# Spelling

The keys that can be read are spelled in the grammar they are read from, and what is read from the spelling is the key
again.
-/

namespace Falach.Tui

open Keepass

/-! ## Reading -/

/-- `parse_keycode`, with the `unwrap` of its first character. -/
def keycodeOrPanic (s : Text) : Except Fault (Except KeyParseError KeyCode) :=
  if s = [] then .ok (.error .empty)
  else do
    let first ← expect s.head?
    if s.tail = [] then return if '!' ≤ first ∧ first ≤ '~' then .ok (.char first) else .error .unknownKey
    else
      match functionKey (Text.lower s) with
      | some code => return .ok code
      | none =>
        match namedKeys.lookup (Text.lower s) with
        | some code => return .ok code
        | none => return .error .unknownKey

theorem keycodeOrPanic_eq (s : Text) : keycodeOrPanic s = .ok (parseKeycode s) := by
  match s with
  | [] => rfl
  | [first] => rfl
  | first :: second :: rest =>
    simp only [keycodeOrPanic, parseKeycode, reduceCtorEq, if_false, List.head?_cons, List.tail_cons, expect, bind,
      Except.bind]
    cases functionKey (Text.lower (first :: second :: rest)) with
    | some code => rfl
    | none => cases namedKeys.lookup (Text.lower (first :: second :: rest)) <;> rfl

/-- The keys of the grammar. -/
inductive Spelled : KeyCode → Prop
  | graphic {c : Char} (h : '!' ≤ c ∧ c ≤ '~') : Spelled (.char c)
  | named {name : Text} {code : KeyCode} (h : (name, code) ∈ namedKeys) : Spelled code
  | function {n : Nat} (h : 1 ≤ n ∧ n ≤ 12) : Spelled (.f n)

/-- A key of the grammar, with no more than the modifiers of the grammar. -/
structure Written (k : Key) : Prop where
  code : Spelled k.code
  shift : k.shift = false
  press : k.press = true

variable {s token : Text} {code : KeyCode} {k : Key} {t : KeyTrigger}

theorem functionKey_spelled (h : functionKey s = some code) : Spelled code := by
  unfold functionKey at h
  split at h
  · obtain ⟨n, -, hn⟩ := Option.bind_eq_some_iff.1 h
    obtain ⟨hrange, hcode⟩ := Option.ite_none_right_eq_some.1 hn
    cases hcode
    exact .function hrange
  · cases h

theorem parseKeycode_spelled (h : parseKeycode s = .ok code) : Spelled code := by
  unfold parseKeycode at h
  split at h
  · cases h
  · split at h
    · rename_i hgraphic
      cases h
      exact .graphic hgraphic
    · cases h
  · split at h
    · rename_i hfunction
      cases h
      exact functionKey_spelled hfunction
    · split at h
      · rename_i hnamed
        cases h
        obtain ⟨before, after, hsplit, -⟩ := List.lookup_eq_some_iff.1 hnamed
        exact .named (hsplit ▸ List.mem_append_right before List.mem_cons_self)
      · cases h

theorem parseSingle_written (h : parseSingle token = .ok k) : Written k := by
  have hplus : Spelled (.char '+') := .graphic (by decide)
  unfold parseSingle at h
  split at h
  · cases h
  · split at h
    · cases h
      exact ⟨hplus, rfl, rfl⟩
    · split at h
      · split at h
        · cases h
        · obtain ⟨modifiers, -, hk⟩ := Loop.bind_ok.1 h
          cases hk
          exact ⟨hplus, rfl, rfl⟩
      · obtain ⟨modifiers, -, h⟩ := Loop.bind_ok.1 h
        obtain ⟨code, hcode, hk⟩ := Loop.bind_ok.1 h
        cases hk
        exact ⟨parseKeycode_spelled hcode, rfl, rfl⟩

/-! ## Spelling -/

theorem renderKeyCode_graphic {c : Char} (h : '!' ≤ c ∧ c ≤ '~') : renderKeyCode (.char c) = [c] := by
  have hspace : c ≠ ' ' := fun hc => absurd (hc ▸ h.1) (by decide)
  exact if_neg hspace

theorem parseKeycode_render (h : Spelled code) : parseKeycode (renderKeyCode code) = .ok code := by
  cases h with
  | @graphic c h =>
    rw [renderKeyCode_graphic h]
    exact if_pos h
  | named h =>
    have hall : namedKeys.all fun p => parseKeycode (renderKeyCode p.2) = .ok p.2 := by decide +kernel
    exact of_decide_eq_true (List.all_eq_true.1 hall _ h)
  | @function n h =>
    have hall : ((List.range 13).all fun n => n = 0 ∨ parseKeycode (renderKeyCode (.f n)) = .ok (.f n)) = true := by
      decide +kernel
    have hin : n ∈ List.range 13 := List.mem_range.2 (by omega)
    have hn := of_decide_eq_true (List.all_eq_true.1 hall n hin)
    exact hn.resolve_left (by omega)

/-- The name of a key has no space, and no plus sign unless it is the key of that name. -/
def cleanName (code : KeyCode) : Bool :=
  renderKeyCode code ≠ [] ∧ ' ' ∉ renderKeyCode code ∧ ('+' ∈ renderKeyCode code → code = .char '+')

theorem cleanName_of_spelled (h : Spelled code) : cleanName code = true := by
  cases h with
  | @graphic c h =>
    have hspace : c ≠ ' ' := fun hc => absurd (hc ▸ h.1) (by decide)
    simp [cleanName, renderKeyCode_graphic h, hspace.symm, eq_comm]
  | named h =>
    have hall : namedKeys.all fun p => cleanName p.2 := by decide +kernel
    exact List.all_eq_true.1 hall _ h
  | @function n h =>
    have hall : ((List.range 13).all fun n => cleanName (.f n)) = true := by decide +kernel
    have hin : n ∈ List.range 13 := List.mem_range.2 (by omega)
    exact List.all_eq_true.1 hall n hin

def modifierNames (k : Key) : List Text :=
  (if k.control then ["ctrl".toList] else []) ++ if k.alt then ["alt".toList] else []

theorem renderKeyGrammar_eq (k : Key) :
    renderKeyGrammar k = ['+'].intercalate (modifierNames k ++ [renderKeyCode k.code]) := by
  unfold renderKeyGrammar modifierNames
  cases k.control <;> cases k.alt <;> simp

theorem parseModifiers_names (k : Key) : parseModifiers (modifierNames k) = .ok (k.control, k.alt) := by
  unfold modifierNames
  cases k.control <;> cases k.alt <;> decide

/-- A key with a name of its own is read after its modifiers. -/
theorem parseSingle_intercalate {name : Text} (hname : name ≠ []) (hplus : '+' ∉ name)
    (hcode : parseKeycode name = .ok code) :
    parseSingle (['+'].intercalate (modifierNames k ++ [name])) = .ok { code, control := k.control, alt := k.alt } := by
  obtain ⟨start, c, rfl⟩ := (List.eq_nil_or_concat' name).resolve_left hname
  have hc : c ≠ '+' := fun hc => hplus (by simp [hc])
  have hsplit : (['+'].intercalate (modifierNames k ++ [start ++ [c]])).splitOn '+' = modifierNames k ++
    [start ++ [c]] := by
    refine Text.splitOn_intercalate_iff.2 ⟨by simp, fun p hp => ?_⟩
    rcases List.mem_append.1 hp with hp | hp
    · have hclean : (modifierNames k).all fun p => '+' ∉ p := by
        unfold modifierNames
        cases k.control <;> cases k.alt <;> decide
      exact of_decide_eq_true (List.all_eq_true.1 hclean p hp)
    · cases List.mem_singleton.1 hp
      exact hplus
  -- the last character is no plus sign, so nothing is taken for the key of that name
  obtain ⟨before, hbefore⟩ : ∃ before, ['+'].intercalate (modifierNames k ++ [start ++ [c]]) = before ++ [c] := by
    unfold modifierNames
    cases k.control <;> cases k.alt
    · exact ⟨start, by simp⟩
    · exact ⟨"alt+".toList ++ start, by simp⟩
    · exact ⟨"ctrl+".toList ++ start, by simp⟩
    · exact ⟨"ctrl+alt+".toList ++ start, by simp⟩
  rw [hbefore] at hsplit ⊢
  have hone : before ++ [c] ≠ ['+'] := fun h => by
    have hlast := congrArg List.getLast? h
    rw [List.getLast?_concat] at hlast
    exact hc (Option.some.inj hlast)
  have hsuffix : "++".toList.isSuffixOf? (before ++ [c]) = none := by
    have hne : ('+' == c) = false := by simpa using hc.symm
    simp [List.isSuffixOf?, List.isPrefixOf?, hne]
  rw [parseSingle, if_neg (by simp), if_neg hone, hsuffix]
  simp only [hsplit, List.dropLast_concat, parseModifiers_names, List.getLastD_concat, hcode]
  rfl

theorem parseSingle_render (h : Written k) : parseSingle (renderKeyGrammar k) = .ok k := by
  obtain ⟨code, control, alt, shift, press⟩ := k
  obtain ⟨hcode, rfl, rfl⟩ := h
  obtain ⟨hname, -, hplus⟩ := of_decide_eq_true (cleanName_of_spelled hcode)
  by_cases hin : '+' ∈ renderKeyCode code
  · cases hplus hin
    cases control <;> cases alt <;> decide
  · rw [renderKeyGrammar_eq]
    exact parseSingle_intercalate hname hin (parseKeycode_render hcode)

theorem space_notMem_render (h : Written k) : ' ' ∉ renderKeyGrammar k := by
  intro hin
  rw [renderKeyGrammar_eq] at hin
  rcases Text.mem_intercalate hin with hin | ⟨p, hp, hin⟩
  · cases List.mem_singleton.1 hin
  · rcases List.mem_append.1 hp with hp | hp
    · have hclean : (modifierNames k).all fun p => ' ' ∉ p := by
        unfold modifierNames
        cases k.control <;> cases k.alt <;> decide
      exact of_decide_eq_true (List.all_eq_true.1 hclean p hp) hin
    · cases List.mem_singleton.1 hp
      exact (of_decide_eq_true (cleanName_of_spelled h.code)).2.1 hin

theorem render_ne_nil (h : Written k) : renderKeyGrammar k ≠ [] := by
  intro hnil
  have hread := parseSingle_render h
  rw [hnil] at hread
  cases hread

theorem parseKey_written (h : parseKey s = .ok t) :
    (∃ k, t = .key k ∧ Written k) ∨ ∃ first last, t = .seq [first, last] ∧ Written first ∧ Written last := by
  rcases parseKey_cases h with ⟨k, hk, rfl⟩ | ⟨a, b, first, last, hfirst, hlast, rfl⟩
  · exact .inl ⟨k, rfl, parseSingle_written hk⟩
  · exact .inr ⟨first, last, rfl, parseSingle_written hfirst, parseSingle_written hlast⟩

theorem parseKey_render (h : parseKey s = .ok t) : parseKey (renderGrammar t) = .ok t := by
  rcases parseKey_written h with ⟨k, rfl, hk⟩ | ⟨first, last, rfl, hfirst, hlast⟩
  · rw [parseKey, renderGrammar, if_neg (render_ne_nil hk), if_neg (space_notMem_render hk), parseSingle_render hk]
    rfl
  · have hrender : renderGrammar (.seq [first, last]) = [' '].intercalate [renderKeyGrammar first,
      renderKeyGrammar last] := rfl
    have hsplit : ([' '].intercalate [renderKeyGrammar first, renderKeyGrammar last]).splitOn ' ' =
        [renderKeyGrammar first, renderKeyGrammar last] := by
      refine Text.splitOn_intercalate_iff.2 ⟨by simp, List.forall_mem_cons.2 ⟨space_notMem_render hfirst, ?_⟩⟩
      exact List.forall_mem_singleton.2 (space_notMem_render hlast)
    have hspace : ' ' ∈ [' '].intercalate [renderKeyGrammar first, renderKeyGrammar last] := by simp
    rw [hrender, parseKey, if_neg (List.ne_nil_of_mem hspace), if_pos hspace]
    simp only [hsplit, List.length_cons, List.length_nil, Nat.lt_irrefl, if_false, List.mapM_cons,
      parseSingle_render hfirst,
      parseSingle_render hlast]
    rfl

/-! ## Equal triggers -/

theorem render_of_keyEventEq {x y : Key} (h : keyEventEq x y = true) : renderKeyGrammar x = renderKeyGrammar y := by
  obtain ⟨hcode, hcontrol, halt, -⟩ := keyEventEq_iff.1 h
  simp only [renderKeyGrammar, hcode, hcontrol, halt]

theorem render_of_seqEq {a b : List Key} (h : seqEq a b = true) : a.map renderKeyGrammar = b.map renderKeyGrammar := by
  induction seqEq_iff.1 h with
  | nil => rfl
  | cons hxy hrest ih =>
    rw [List.map_cons, List.map_cons, render_of_keyEventEq hxy, ih (seqEq_iff.2 hrest)]

theorem render_of_triggersConflict {t t' : KeyTrigger} (h : triggersConflict t t' = true) :
    renderGrammar t = renderGrammar t' := by
  cases t <;> cases t'
  case key.key => exact render_of_keyEventEq h
  case seq.seq => exact congrArg [' '].intercalate (render_of_seqEq h)
  case countSeq.countSeq => exact congrArg [' '].intercalate (render_of_seqEq h)
  all_goals cases h

/-- What is read from a text is read again from its spelling, triggers that conflict are spelled alike, what is read
from two texts is spelled alike just if it is equal, and no name of a key makes the parser panic. -/
theorem spelling_round_trip (s : Text) : (∀ name, keycodeOrPanic name = .ok (parseKeycode name)) ∧
    (∀ t, parseKey s = .ok t → parseKey (renderGrammar t) = .ok t) ∧
    (∀ t t', triggersConflict t t' = true → renderGrammar t = renderGrammar t') ∧
    ∀ s' t t', parseKey s = .ok t → parseKey s' = .ok t' → (renderGrammar t = renderGrammar t' ↔ t = t') := by
  refine ⟨keycodeOrPanic_eq, fun t => parseKey_render, fun t t' => render_of_triggersConflict, fun s' t t' h h' =>
    ⟨fun hrender => ?_, ?_⟩⟩
  · have hread := parseKey_render h
    rw [hrender, parseKey_render h'] at hread
    exact (Except.ok.inj hread).symm
  · rintro rfl
    rfl

/-- Modifiers in another order and twice, a plus key, and a function key with a zero. -/
theorem plus_key_round_trip : ∃ t, parseKey "ALT+ctrl+Ctrl++ F07".toList = .ok t ∧
    renderGrammar t = "ctrl+alt++ f7".toList ∧
    parseKey "ctrl+alt++ f7".toList = .ok t := by
  have hread : parseKey "ALT+ctrl+Ctrl++ F07".toList =
      .ok (.seq [{ code := .char '+', control := true, alt := true }, { code := .f 7 }]) := by decide +kernel
  have hrender : renderGrammar (.seq [{ code := .char '+', control := true, alt := true }, { code := .f 7 }]) =
      "ctrl+alt++ f7".toList := by decide +kernel
  exact ⟨_, hread, hrender, hrender ▸ (spelling_round_trip "ALT+ctrl+Ctrl++ F07".toList).2.1 _ hread⟩

end Falach.Tui
