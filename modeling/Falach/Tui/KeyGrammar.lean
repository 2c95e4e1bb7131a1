import Falach.Entry.Totp
import Falach.Tui.Widgets
/-!
# Triggers

What triggers a command: a key, a sequence of keys, or a sequence after a count. Users write keys and sequences in a
grammar of their own.
-/

namespace Falach.Tui

namespace KeyCode

/-! Function keys, and the keys that move by pages, are among the other keys: these are their numbers. -/

def f (n : Nat) : KeyCode := .other n
def home : KeyCode := .other 256
def «end» : KeyCode := .other 257
def pageUp : KeyCode := .other 258
def pageDown : KeyCode := .other 259

end KeyCode

inductive KeyTrigger where
  | key (k : Key)
  | seq (keys : List Key)
  | countSeq (keys : List Key)
deriving DecidableEq

/-! ## Equal keys -/

/-- Terminals do not agree on Shift for characters, whose case shows it already. -/
def keyEventEq (bound ev : Key) : Bool :=
  if bound.code ≠ ev.code then false
  else
    match bound.code with
    | .char _ => bound.control = ev.control ∧ bound.alt = ev.alt
    | _ => bound.control = ev.control ∧ bound.alt = ev.alt ∧ bound.shift = ev.shift

def seqEq (a b : List Key) : Bool := a.length = b.length ∧ (a.zip b).all fun p => keyEventEq p.1 p.2

/-- A sequence and the same sequence after a count do not conflict. -/
def triggersConflict : KeyTrigger → KeyTrigger → Bool
  | .key x, .key y => keyEventEq x y
  | .seq x, .seq y => seqEq x y
  | .countSeq x, .countSeq y => seqEq x y
  | _, _ => false

/-! ## Reading keys -/

inductive KeyParseError where
  | empty
  | sequenceTooLong
  | unknownModifier
  | unknownKey
deriving DecidableEq

def namedKeys : List (Text × KeyCode) :=
  [("space".toList, .char ' '), ("esc".toList, .esc), ("enter".toList, .enter), ("tab".toList, .tab),
    ("backtab".toList, .backTab), ("up".toList, .up), ("down".toList, .down), ("left".toList, .left),
    ("right".toList, .right), ("home".toList, .home), ("end".toList, .end), ("pgup".toList, .pageUp),
    ("pgdn".toList, .pageDown)]

/-- `f1` to `f12`, of a name in lower case. -/
def functionKey : Text → Option KeyCode
  | 'f' :: rest => (parseUnsigned (2 ^ 8) rest).bind fun n => if 1 ≤ n ∧ n ≤ 12 then some (.f n) else none
  | _ => none

def parseKeycode (s : Text) : Except KeyParseError KeyCode :=
  match s with
  | [] => .error .empty
  | [first] => if '!' ≤ first ∧ first ≤ '~' then .ok (.char first) else .error .unknownKey
  | _ =>
    match functionKey (Text.lower s) with
    | some code => .ok code
    | none =>
      match namedKeys.lookup (Text.lower s) with
      | some code => .ok code
      | none => .error .unknownKey

/-- The modifiers `ctrl` and `alt`, as whether each is there. -/
def parseModifiers (segments : List Text) : Except KeyParseError (Bool × Bool) :=
  segments.foldlM (fun modifiers seg =>
    if Text.lower seg = "ctrl".toList then .ok (true, modifiers.2)
    else if Text.lower seg = "alt".toList then .ok (modifiers.1, true)
    else .error .unknownModifier) (false, false)

def parseSingle (token : Text) : Except KeyParseError Key :=
  if token = [] then .error .empty
  else if token = ['+'] then .ok { code := .char '+' }
  else
    match "++".toList.isSuffixOf? token with
    | some modifierSrc =>
      if modifierSrc = [] then .error .unknownModifier
      else do
        let (control, alt) ← parseModifiers (modifierSrc.splitOn '+')
        return { code := .char '+', control, alt }
    | none => do
      let segments := token.splitOn '+'
      let (control, alt) ← parseModifiers segments.dropLast
      let code ← parseKeycode (segments.getLastD [])
      return { code, control, alt }

def parseKey (s : Text) : Except KeyParseError KeyTrigger :=
  if s = [] then .error .empty
  else if ' ' ∈ s then
    let tokens := s.splitOn ' '
    if 2 < tokens.length then .error .sequenceTooLong
    else do
      let keys ← tokens.mapM parseSingle
      return .seq keys
  else do
    let k ← parseSingle s
    return .key k

/-! ## Writing keys -/

/-- The name of a key without its modifiers. -/
def renderKeyCode : KeyCode → Text
  | .char c => if c = ' ' then "space".toList else [c]
  | .esc => "esc".toList
  | .enter => "enter".toList
  | .tab => "tab".toList
  | .backTab => "backtab".toList
  | .backspace => "backspace".toList
  | .up => "up".toList
  | .down => "down".toList
  | .left => "left".toList
  | .right => "right".toList
  | .other 256 => "home".toList
  | .other 257 => "end".toList
  | .other 258 => "pgup".toList
  | .other 259 => "pgdn".toList
  | .other n => 'f' :: Nat.toDigits 10 n

def renderKeyGrammar (k : Key) : Text :=
  (if k.control then "ctrl+".toList else []) ++ (if k.alt then "alt+".toList else []) ++ renderKeyCode k.code

def renderGrammar : KeyTrigger → Text
  | .key k => renderKeyGrammar k
  | .seq keys | .countSeq keys => [' '].intercalate (keys.map renderKeyGrammar)

/-! ## The conflicts are an equivalence -/

theorem keyEventEq_iff {x y : Key} : keyEventEq x y = true ↔
    x.code = y.code ∧ x.control = y.control ∧ x.alt = y.alt ∧ ((∃ c, x.code = .char c) ∨ x.shift = y.shift) := by
  unfold keyEventEq
  by_cases hcode : x.code = y.code
  · rw [if_neg (not_not.2 hcode)]
    cases hx : x.code with
    | char c => simp [← hcode, hx]
    | _ => simp [← hcode, hx]
  · rw [if_pos hcode]
    simp [hcode]

theorem keyEventEq_refl (x : Key) : keyEventEq x x = true := keyEventEq_iff.2 ⟨rfl, rfl, rfl, .inr rfl⟩

theorem keyEventEq_symm {x y : Key} (h : keyEventEq x y = true) : keyEventEq y x = true := by
  obtain ⟨hcode, hcontrol, halt, hshift⟩ := keyEventEq_iff.1 h
  refine keyEventEq_iff.2 ⟨hcode.symm, hcontrol.symm, halt.symm, ?_⟩
  rcases hshift with ⟨c, hc⟩ | hshift
  · exact .inl ⟨c, hcode ▸ hc⟩
  · exact .inr hshift.symm

theorem keyEventEq_trans {x y z : Key} (h : keyEventEq x y = true) (h' : keyEventEq y z = true) :
    keyEventEq x z = true := by
  obtain ⟨hcode, hcontrol, halt, hshift⟩ := keyEventEq_iff.1 h
  obtain ⟨hcode', hcontrol', halt', hshift'⟩ := keyEventEq_iff.1 h'
  refine keyEventEq_iff.2 ⟨hcode.trans hcode', hcontrol.trans hcontrol', halt.trans halt', ?_⟩
  rcases hshift with ⟨c, hc⟩ | hshift
  · exact .inl ⟨c, hc⟩
  · rcases hshift' with ⟨c, hc⟩ | hshift'
    · exact .inl ⟨c, hcode.trans hc⟩
    · exact .inr (hshift.trans hshift')

theorem seqEq_iff {a b : List Key} : seqEq a b = true ↔ List.Forall₂ (fun x y => keyEventEq x y = true) a b := by
  unfold seqEq
  rw [decide_eq_true_eq, List.forall₂_iff_zip]
  refine and_congr_right fun _ => ?_
  rw [List.all_eq_true]
  exact ⟨fun h x y hxy => h (x, y) hxy, fun h p hp => h hp⟩

theorem seqEq_refl (a : List Key) : seqEq a a = true := seqEq_iff.2 (List.forall₂_same.2 fun x _ => keyEventEq_refl x)

theorem seqEq_symm {a b : List Key} (h : seqEq a b = true) : seqEq b a = true :=
  seqEq_iff.2 ((seqEq_iff.1 h).flip.imp fun _ _ hxy => keyEventEq_symm hxy)

theorem seqEq_trans {a b c : List Key} (h : seqEq a b = true) (h' : seqEq b c = true) : seqEq a c = true := by
  rw [seqEq_iff] at h h' ⊢
  induction h generalizing c with
  | nil => exact h'
  | cons hxy _ ih =>
    cases h' with
    | cons hyz hrest => exact .cons (keyEventEq_trans hxy hyz) (ih hrest)

theorem triggersConflict_refl (t : KeyTrigger) : triggersConflict t t = true := by
  cases t with
  | key k => exact keyEventEq_refl k
  | seq keys => exact seqEq_refl keys
  | countSeq keys => exact seqEq_refl keys

theorem triggersConflict_symm {s t : KeyTrigger} (h : triggersConflict s t = true) : triggersConflict t s = true := by
  cases s <;> cases t
  case key.key => exact keyEventEq_symm h
  case seq.seq => exact seqEq_symm h
  case countSeq.countSeq => exact seqEq_symm h
  all_goals cases h

/-! ## What is read -/

/-- A text with a space has at least two tokens. -/
theorem two_le_tokens {s : Text} (h : ' ' ∈ s) : 2 ≤ (s.splitOn ' ').length := by
  match hs : s.splitOn ' ' with
  | [] => exact absurd hs (List.splitOn_ne_nil ' ' s)
  | [token] =>
    have hjoin : [' '].intercalate (s.splitOn ' ') = s := List.intercalate_splitOn ' '
    rw [hs, List.intercalate_singleton] at hjoin
    have hin : token ∈ s.splitOn ' ' := hs ▸ List.mem_singleton_self token
    exact absurd (hjoin ▸ h) (Text.mem_splitOn s token hin).1
  | _ :: _ :: _ => simp

/-- A text is a key or a sequence of two. -/
theorem parseKey_cases {s : Text} {t : KeyTrigger} (h : parseKey s = .ok t) :
    (∃ k, parseSingle s = .ok k ∧ t = .key k) ∨
      ∃ a b first last, parseSingle a = .ok first ∧ parseSingle b = .ok last ∧ t = .seq [first, last] := by
  by_cases hempty : s = []
  · rw [parseKey, if_pos hempty] at h
    cases h
  · rw [parseKey, if_neg hempty] at h
    by_cases hspace : ' ' ∈ s
    · rw [if_pos hspace] at h
      by_cases hlong : 2 < (s.splitOn ' ').length
      · simp only [if_pos hlong] at h
        cases h
      · simp only [if_neg hlong] at h
        obtain ⟨keys, hkeys, ht⟩ := Loop.bind_ok.1 h
        cases ht
        have hread := Loop.mapM_forall₂ hkeys
        have hlen : (s.splitOn ' ').length = 2 := Nat.le_antisymm (Nat.le_of_not_lt hlong) (two_le_tokens hspace)
        obtain ⟨a, b, htokens⟩ := List.length_eq_two.1 hlen
        rw [htokens] at hread
        cases hread with
        | cons hfirst hread =>
          cases hread with
          | cons hlast hread =>
            cases hread
            exact .inr ⟨a, b, _, _, hfirst, hlast, rfl⟩
    · rw [if_neg hspace] at h
      obtain ⟨k, hk, ht⟩ := Loop.bind_ok.1 h
      cases ht
      exact .inl ⟨k, hk, rfl⟩

theorem parseKey_shape {s : Text} {t : KeyTrigger} (h : parseKey s = .ok t) :
    (∃ k, t = .key k) ∨ ∃ first last, t = .seq [first, last] := by
  rcases parseKey_cases h with ⟨k, -, ht⟩ | ⟨a, b, first, last, -, -, ht⟩
  · exact .inl ⟨k, ht⟩
  · exact .inr ⟨first, last, ht⟩

end Falach.Tui
