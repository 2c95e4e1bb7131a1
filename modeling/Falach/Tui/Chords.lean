import Falach.Tui.Dispatch
import Falach.Tui.Keymap
/-!
# Chords

How a keymap answers for a key: whether a command is bound to it, and whether it is a motion between tabs. A motion is a
key, a sequence of keys, or a sequence after a count, so that a key may only begin one.
-/

namespace Falach.Tui

/-! ## Digits -/

/-- The digit of `Alt+1` to `Alt+9`. -/
def altDigit (ev : Key) : Option Nat := if ev.alt then (digitValue ev).filter (· ≠ 0) else none

def plainDigit (ev : Key) : Option Nat := if ev.control ∨ ev.alt then none else digitValue ev

/-- `is_tab_command`. -/
def Command.isTab : Command → Bool
  | .nextTab | .prevTab | .jumpToTab => true
  | _ => false

/-- The keys that are typed for a trigger. -/
def KeyTrigger.keys : KeyTrigger → List Key
  | .key k => [k]
  | .seq keys | .countSeq keys => keys

/-- The trigger is this key alone. -/
def KeyTrigger.isKey (ev : Key) : KeyTrigger → Bool
  | .key k => keyEventEq k ev
  | _ => false

/-- The keys of a sequence. -/
def KeyTrigger.sequence : KeyTrigger → Option (List Key)
  | .seq s | .countSeq s => some s
  | .key _ => none

def prefixMatches (seq typed : List Key) : Bool :=
  typed.length ≤ seq.length ∧ (seq.zip typed).all fun p => keyEventEq p.1 p.2

namespace Keymap

variable (km : Keymap) (ctx : Contexts)

/-- `Keymap::matches`. -/
def isBound (command : Command) (ev : Key) : Bool := km.map.any fun r => r.command = command ∧ r.trigger.isKey ev

/-- The rows of the motions between tabs. -/
def tabRows : List Row := km.map.filter fun r => r.command.isTab ∧ r.contexts.contains ctx

def sequenceTriggers : List (List Key) := (km.tabRows ctx).filterMap fun r => r.trigger.sequence

/-- A sequence begins with this key. -/
def begins (ev : Key) : Bool := (km.sequenceTriggers ctx).any fun keys => keys[0]?.any (keyEventEq · ev)

def ctxHasCountSeq : Bool :=
  (km.tabRows ctx).any fun r =>
    match r.trigger with
    | .countSeq _ => true
    | _ => false

/-- The digit that this key gives to a count. -/
def countDigit (ev : Key) : Option Nat := if km.ctxHasCountSeq ctx then plainDigit ev else none

def directTabKey (ev : Key) (pending : PendingSeq) : Option (Resolution × PendingSeq) :=
  ((km.tabRows ctx).find? fun r => r.trigger.isKey ev).map fun r =>
    (.command r.command (if r.command = .jumpToTab then (altDigit ev).or pending.count else none), {})

/-- The step of the loop in `completed_command`. -/
def noteSequence (keys : List Key) (found : Option Command × Option Command) (r : Row) :
    Option Command × Option Command :=
  match r.trigger with
  | .seq s => if seqEq s keys then (some r.command, found.2) else found
  | .countSeq s => if seqEq s keys then (found.1, some r.command) else found
  | .key _ => found

/-- The commands whose sequence is `keys`, without a count and with one. -/
def sequenceCommands (keys : List Key) : Option Command × Option Command :=
  (km.tabRows ctx).foldl (noteSequence keys) (none, none)

def completedCommand (keys : List Key) (count : Option Nat) : Option Command :=
  let (seqCmd, countCmd) := km.sequenceCommands ctx keys
  if count.isSome then countCmd.or seqCmd else seqCmd.or countCmd

def continueSequence (ev : Key) (pending : PendingSeq) : Resolution × PendingSeq :=
  let depth := pending.keys.length
  if ¬ (km.sequenceTriggers ctx).any fun keys =>
      prefixMatches keys pending.keys && keys[depth]?.any (keyEventEq · ev) then (.none, {})
  else
    let keys := pending.keys ++ [ev]
    match km.completedCommand ctx keys pending.count with
    | some cmd => (.command cmd (if cmd = .jumpToTab then pending.count else none), {})
    | none => (.pending, { pending with keys })

/-- A count is a `u16`, and stays at its greatest value. -/
def accumulate (count : Option Nat) (d : Nat) : Nat := min (min (count.getD 0 * 10) (2 ^ 16 - 1) + d) (2 ^ 16 - 1)

/-- `Keymap::resolve`. -/
def resolve (ev : Key) (pending : PendingSeq) : Resolution × PendingSeq :=
  -- `Alt+N` jumps at once, whatever chord is pending
  match if (altDigit ev).isSome then km.directTabKey ctx ev pending else none with
  | some res => res
  | none =>
    if pending.keys ≠ [] then km.continueSequence ctx ev pending
    else
      match km.countDigit ctx ev with
      | some d => (.pending, { pending with count := some (accumulate pending.count d) })
      | none =>
        match km.directTabKey ctx ev pending with
        | some res => res
        | none =>
          if km.begins ctx ev then
            (.pending, { pending with keys := pending.keys ++ [ev] })
          else (.none, {})

/-! ## Where a key goes -/

/-- Where a key is typed, and whether the tree of entries is in visual mode and has marks. -/
structure Site where
  context : Context
  visual : Bool := false
  marked : Bool := false

/-- What a key is taken for. -/
inductive Selected where
  | command (cmd : Command) (count : Option Nat)
  | pending
  /-- A key that the tree of entries does not look up. -/
  | own
  | nothing
deriving DecidableEq

/-- What a key is taken for, by the command that a tab found for it. -/
def Selected.found : Option Command → Selected
  | some cmd => .command cmd none
  | none => .nothing

/-- `Contexts::WORKSPACE`. -/
def workspace : Contexts := .of Command.workspaceContexts

/-- The keys that visual mode, marks and the tree keep for themselves. -/
def ownKey (site : Site) (ev : Key) : Bool :=
  (site.visual ∧ (km.isBound .next ev ∨ km.isBound .prev ev ∨ ev.code = .char ' ' ∨ ev.code = .esc)) ∨
    (¬ site.visual ∧ site.marked ∧ ev.code = .esc) ∨ (site.context = .secretsTree ∧ ev.code = .char ' ')

/-- The commands of every tab that come before its chords. -/
def globalCommands : List Command := [.quit, .lockNow, .help]

def navCommands : List Command := [.next, .prev, .parent, .child, .confirm, .cancel]

/-- The tab keeps this key for itself. -/
def isKept (site : Site) (ev : Key) : Bool :=
  (site.context = .secretsTree ∨ site.context = .secretsDetail) ∧ km.ownKey site ev

/-- The commands that a tab looks up, in its order. -/
def lookupOrder : Context → List Command
  | .secretsTree => [.focusPane, .jumpBack, .jumpForward] ++ App.secretsCommands ++ navCommands
  | .secretsDetail => [.focusPane, .jumpBack] ++ App.secretsCommands ++ navCommands
  | .pinnedTab => [.jumpBack, .revealPassword, .history] ++ navCommands
  | _ => navCommands

/-- `dispatch_active_tab_key`, as far as it finds a command. -/
def tabSelects (site : Site) (ev : Key) : Selected :=
  if km.isKept site ev then .own else .found ((lookupOrder site.context).find? fun cmd => km.isBound cmd ev)

/-- `handle_event` of a key in the workspace without an overlay, as far as it finds a command. -/
def dispatch (site : Site) (ev : Key) (pending : PendingSeq) : Selected × PendingSeq :=
  match globalCommands.find? fun cmd => km.isBound cmd ev with
  | some cmd => (.command cmd none, pending)
  | none =>
    match km.resolve workspace ev pending with
    | (.command cmd count, pending) => (.command cmd count, pending)
    | (.pending, pending) => (.pending, pending)
    | (.none, pending) => (km.tabSelects site ev, pending)

/-- Keys typed one after another. -/
def typeKeys (site : Site) : List Key → PendingSeq → List Selected × PendingSeq
  | [], pending => ([], pending)
  | ev :: evs, pending =>
    let (selected, pending) := km.dispatch site ev pending
    let (rest, pending) := typeKeys site evs pending
    (selected :: rest, pending)

/-! ## Bound keys -/

variable {km} {cmd other : Command} {ev first last : Key} {site : Site} {pending : PendingSeq}

theorem isBound_iff : km.isBound cmd ev = true ↔
    ∃ r ∈ km.map, r.command = cmd ∧ ∃ k, r.trigger = .key k ∧ keyEventEq k ev = true := by
  rw [isBound, List.any_eq_true]
  refine exists_congr fun r => and_congr_right fun _ => ?_
  rw [decide_eq_true_eq]
  refine and_congr_right fun _ => ?_
  cases r.trigger with
  | key k => exact ⟨fun h => ⟨k, rfl, h⟩, fun ⟨_, hk, h⟩ => by cases hk; exact h⟩
  | seq keys => exact ⟨fun h => (nomatch h), fun ⟨_, hk, _⟩ => (nomatch hk)⟩
  | countSeq keys => exact ⟨fun h => (nomatch h), fun ⟨_, hk, _⟩ => (nomatch hk)⟩

/-- A key is bound to at most one command of a context. -/
theorem Unambiguous.isBound_unique (h : km.Unambiguous) (hcmd : km.isBound cmd ev = true)
    (hother : km.isBound other ev = true) {c : Context} (hc : c ∈ cmd.contexts) (hc' : c ∈ other.contexts) :
    other = cmd := by
  obtain ⟨r, hr, rfl, k, hk, he⟩ := isBound_iff.1 hcmd
  obtain ⟨r', hr', rfl, k', hk', he'⟩ := isBound_iff.1 hother
  exact (h.command_unique hr hr' hk hk' he he' hc hc').symm

/-- The first command of a list that a key is bound to. -/
theorem find?_of_first {α : Type} [DecidableEq α] {p : α → Bool} {a : α} {l : List α} (hp : p a = true) (ha : a ∈ l)
    (hbefore : ∀ b ∈ l.takeWhile fun b => b ≠ a, p b = true → b = a) : l.find? p = some a := by
  induction l with
  | nil => cases ha
  | cons b l ih =>
    by_cases hb : b = a
    · rw [hb, List.find?_cons_of_pos hp]
    · have htake : (b :: l).takeWhile (fun b => b ≠ a) = b :: l.takeWhile fun b => b ≠ a :=
        List.takeWhile_cons_of_pos (decide_eq_true hb)
      rw [htake] at hbefore
      have hnot : ¬ p b = true := fun hpb => hb (hbefore b List.mem_cons_self hpb)
      rw [List.find?_cons_of_neg hnot]
      exact ih ((List.mem_cons.1 ha).resolve_left (Ne.symm hb)) fun b' hb' => hbefore b' (List.mem_cons_of_mem b hb')

/-! ## The motions between tabs -/

theorem isTab_contexts (h : cmd.isTab = true) : cmd.contexts = Command.workspaceContexts := by
  cases cmd <;> first | rfl | cases h

theorem workspace_contains {cs : List Context} {c : Context} (hc : c ∈ cs) (hsite : c ∈ Command.workspaceContexts) :
    (Contexts.of cs).contains workspace = true := Contexts.contains_of.2 ⟨c, hc, hsite⟩

theorem Unambiguous.mem_tabRows (h : km.Unambiguous) {r : Row} :
    r ∈ km.tabRows workspace ↔ r ∈ km.map ∧ r.command.isTab = true := by
  rw [tabRows, List.mem_filter, decide_eq_true_eq]
  refine and_congr_right fun hr => and_iff_left_of_imp fun htab => ?_
  rw [h.offered r hr, isTab_contexts htab]
  exact workspace_contains (c := .secretsTree) (by decide) (by decide)

/-- The motion that a key is bound to, with the count that it takes. -/
theorem Unambiguous.directTabKey_eq (h : km.Unambiguous) (htab : cmd.isTab = true) (hbound : km.isBound cmd ev = true) :
    km.directTabKey workspace ev pending =
      some (.command cmd (if cmd = .jumpToTab then (altDigit ev).or pending.count else none), {}) := by
  have hfound : ∃ r, (km.tabRows workspace).find? (fun r => r.trigger.isKey ev) = some r ∧ r.command = cmd := by
    obtain ⟨r, hr, hcmd, k, hk, he⟩ := isBound_iff.1 hbound
    have hsome : ((km.tabRows workspace).find? fun r => r.trigger.isKey ev).isSome := by
      refine List.find?_isSome.2 ⟨r, h.mem_tabRows.2 ⟨hr, hcmd ▸ htab⟩, ?_⟩
      rw [hk]
      exact he
    obtain ⟨r', hr'⟩ := Option.isSome_iff_exists.1 hsome
    obtain ⟨hmem, htab'⟩ := h.mem_tabRows.1 (List.mem_of_find?_eq_some hr')
    have hbound' : km.isBound r'.command ev = true := by
      refine List.any_eq_true.2 ⟨r', hmem, decide_eq_true ⟨rfl, ?_⟩⟩
      exact List.find?_some (p := fun r : Row => r.trigger.isKey ev) hr'
    refine ⟨r', hr', h.isBound_unique hbound hbound' (c := .secretsTree) ?_ ?_⟩
    · rw [isTab_contexts htab]
      decide
    · rw [isTab_contexts htab']
      decide
  obtain ⟨r, hr, rfl⟩ := hfound
  rw [directTabKey, hr, Option.map_some]

theorem directTabKey_none (h : ∀ cmd : Command, cmd.isTab = true → km.isBound cmd ev = false) :
    km.directTabKey workspace ev pending = none := by
  rw [directTabKey, Option.map_eq_none_iff, List.find?_eq_none]
  intro r hr hkey
  obtain ⟨hmem, htab⟩ := List.mem_filter.1 hr
  have hbound : km.isBound r.command ev = true := List.any_eq_true.2 ⟨r, hmem, decide_eq_true ⟨rfl, hkey⟩⟩
  rw [h r.command (of_decide_eq_true htab).1] at hbound
  cases hbound

/-! ## One key -/

/-- Commands of the tree that the detail pane looks up before `cancel`, which they have no context in common with. -/
def treeCommands : List Command := [.visualMode, .moveToGroup, .addTag, .removeTag]

/-- A key reaches the command that it is bound to. -/
def Reaches (site : Site) (cmd : Command) (ev : Key) : Prop :=
  cmd ∈ globalCommands ∨ km.countDigit workspace ev = none ∧
    (cmd.isTab = true ∨ km.begins workspace ev = false ∧ km.isKept site ev = false)

/-- A tab looks every command of its context up, and before it only commands that have a context in common with it. -/
theorem lookupOrder_spec {c : Context} (hsite : c ∈ Command.workspaceContexts) (hc : c ∈ cmd.contexts)
    (hglobal : cmd ∉ globalCommands) (htab : cmd.isTab = false) :
    cmd ∈ lookupOrder c ∧ ∀ other ∈ (lookupOrder c).takeWhile fun other => other ≠ cmd,
      (∃ c' ∈ cmd.contexts, c' ∈ other.contexts) ∨ cmd = .cancel ∧ c = .secretsDetail ∧ other ∈ treeCommands := by
  have hall : (Command.workspaceContexts.all fun c => Command.each.all fun cmd =>
      decide (c ∉ cmd.contexts ∨ cmd ∈ globalCommands ∨ cmd.isTab = true ∨ cmd ∈ lookupOrder c ∧
        ∀ other ∈ (lookupOrder c).takeWhile fun other => other ≠ cmd,
          (∃ c' ∈ cmd.contexts, c' ∈ other.contexts) ∨
            cmd = .cancel ∧ c = .secretsDetail ∧ other ∈ treeCommands)) = true := by decide +kernel
  have hcase := of_decide_eq_true (List.all_eq_true.1 (List.all_eq_true.1 hall c hsite) cmd cmd.mem_each)
  rcases hcase with hout | hin | htab' | hspec
  · exact absurd hc hout
  · exact absurd hin hglobal
  · rw [htab] at htab'
    cases htab'
  · exact hspec

theorem globalCommands_contexts {c : Context} (hcmd : cmd ∈ globalCommands) (hsite : c ∈ Command.workspaceContexts) :
    c ∈ cmd.contexts := by
  have hall : (Command.workspaceContexts.all fun c => globalCommands.all fun cmd =>
    decide (c ∈ cmd.contexts)) = true := by
    decide +kernel
  exact of_decide_eq_true (List.all_eq_true.1 (List.all_eq_true.1 hall c hsite) cmd hcmd)

theorem countDigit_alt (h : (altDigit ev).isSome = true) : km.countDigit workspace ev = none := by
  have halt : ev.alt = true := by
    by_contra hnot
    rw [altDigit, if_neg hnot] at h
    cases h
  have hnone : plainDigit ev = none := if_pos (.inr halt)
  rw [countDigit, hnone, ite_self]

/-- A key that is no chord's goes to the tab. -/
theorem dispatch_idle (hglobal : ∀ cmd ∈ globalCommands, km.isBound cmd ev = false) (hkeys : pending.keys = [])
    (htab : ∀ cmd : Command, cmd.isTab = true → km.isBound cmd ev = false) :
    km.dispatch site ev pending = (km.countDigit workspace ev).elim
      (if km.begins workspace ev then (.pending, { pending with keys := [ev] }) else (km.tabSelects site ev, {}))
      fun d => (.pending, { pending with count := some (accumulate pending.count d) }) := by
  have hfind : globalCommands.find? (fun cmd => km.isBound cmd ev) = none :=
    List.find?_eq_none.2 fun cmd hcmd => Bool.eq_false_iff.1 (hglobal cmd hcmd)
  have hdirect : km.directTabKey workspace ev pending = none := directTabKey_none htab
  rw [dispatch, hfind]
  simp only [resolve, hdirect, ite_self, hkeys, ne_eq, not_true_eq_false, if_false, List.nil_append]
  cases km.countDigit workspace ev with
  | some d => rfl
  | none => by_cases hb : km.begins workspace ev = true <;> simp [hb]

theorem Unambiguous.isBound_other (h : km.Unambiguous) (hin : site.context ∈ cmd.contexts)
    (hbound : km.isBound cmd ev = true) (hne : other ≠ cmd) (hother : site.context ∈ other.contexts) :
    km.isBound other ev = false :=
  Bool.eq_false_iff.2 fun hb => hne (h.isBound_unique hbound hb hin hother)

variable (h : km.Unambiguous) (hsite : site.context ∈ Command.workspaceContexts) (hin : site.context ∈ cmd.contexts)
include h hsite hin

/-- A command of every tab does not wait for chords. -/
theorem Unambiguous.dispatch_global (hglobal : cmd ∈ globalCommands) (hbound : km.isBound cmd ev = true) :
    km.dispatch site ev pending = (.command cmd none, pending) := by
  have hfind : globalCommands.find? (fun cmd => km.isBound cmd ev) = some cmd := by
    refine find?_of_first hbound hglobal fun other hother hb => ?_
    exact h.isBound_unique hbound hb hin (globalCommands_contexts ((List.takeWhile_subset _) hother) hsite)
  rw [dispatch, hfind]

theorem Unambiguous.dispatch_tab (htab : cmd.isTab = true) (hbound : km.isBound cmd ev = true)
    (hkeys : pending.keys = []) :
    km.dispatch site ev pending = (km.countDigit workspace ev).elim
      (.command cmd (if cmd = .jumpToTab then (altDigit ev).or pending.count else none), {})
      fun d => (.pending, { pending with count := some (accumulate pending.count d) }) := by
  have hfind : globalCommands.find? (fun cmd => km.isBound cmd ev) = none := by
    refine List.find?_eq_none.2 fun other hother => Bool.eq_false_iff.1 ?_
    refine h.isBound_other hin hbound ?_ (globalCommands_contexts hother hsite)
    rintro rfl
    cases other <;> first | exact absurd hother (by decide) | cases htab
  have hdirect : km.directTabKey workspace ev pending =
      some (.command cmd (if cmd = .jumpToTab then (altDigit ev).or pending.count else none), {}) :=
    h.directTabKey_eq htab hbound
  rw [dispatch, hfind]
  by_cases halt : (altDigit ev).isSome = true
  · simp only [resolve, if_pos halt, hdirect, countDigit_alt halt, Option.elim_none]
  · simp only [resolve, if_neg halt, hdirect, hkeys, ne_eq, not_true_eq_false, if_false]
    cases km.countDigit workspace ev with
    | some d => rfl
    | none => rfl

/-- What a tab takes a key for that is bound to one of its commands. -/
theorem Unambiguous.tabSelects_eq (hglobal : cmd ∉ globalCommands) (htab : cmd.isTab = false)
    (hbound : km.isBound cmd ev = true)
    (hcancel : cmd = .cancel → site.context = .secretsDetail → ∀ other ∈ treeCommands, km.isBound other ev = false) :
    km.tabSelects site ev = if km.isKept site ev then .own else .command cmd none := by
  obtain ⟨hlooked, hbefore⟩ := lookupOrder_spec hsite hin hglobal htab
  have hfind : (lookupOrder site.context).find? (fun cmd => km.isBound cmd ev) = some cmd := by
    refine find?_of_first hbound hlooked fun other hother hb => ?_
    rcases hbefore other hother with ⟨c, hc, hc'⟩ | ⟨hcmd, hdetail, htree⟩
    · exact h.isBound_unique hbound hb hc hc'
    · rw [hcancel hcmd hdetail other htree] at hb
      cases hb
  rw [tabSelects, hfind]
  rfl

/-- What a key is taken for that is bound to a command of the context. -/
theorem Unambiguous.dispatch_bound (hbound : km.isBound cmd ev = true) (hkeys : pending.keys = [])
    (hcount : pending.count = none ∨ cmd = .jumpToTab)
    (hcancel : cmd = .cancel → site.context = .secretsDetail → ∀ other ∈ treeCommands, km.isBound other ev = false) :
    km.dispatch site ev pending = (.command cmd (if cmd = .jumpToTab then (altDigit ev).or pending.count else none),
      {}) ↔
      km.Reaches site cmd ev := by
  have hwaits (d : Nat) : (Selected.pending, ({ pending with count := some d } : PendingSeq)) ≠
      (Selected.command cmd (if cmd = .jumpToTab then (altDigit ev).or pending.count else none), {}) := by
    intro he
    cases congrArg Prod.fst he
  -- in the order of `dispatch`: the global commands, the tabs, the ones of the selected pane
  by_cases hglobal : cmd ∈ globalCommands
  · have hjump : cmd ≠ .jumpToTab := by
      rintro rfl
      exact absurd hglobal (by decide)
    have hpending : pending = {} := by
      cases pending
      cases hkeys
      cases hcount.resolve_right hjump
      rfl
    rw [h.dispatch_global hsite hin hglobal hbound, if_neg hjump, hpending]
    exact ⟨fun _ => .inl hglobal, fun _ => rfl⟩
  · by_cases htab : cmd.isTab = true
    · rw [h.dispatch_tab hsite hin htab hbound hkeys]
      cases hd : km.countDigit workspace ev with
      | some d =>
        refine ⟨fun he => absurd he (hwaits _), ?_⟩
        rintro (hg | ⟨hnone, -⟩)
        · exact absurd hg hglobal
        · rw [hd] at hnone
          cases hnone
      | none => exact ⟨fun _ => .inr ⟨hd, .inl htab⟩, fun _ => rfl⟩
    · have hjump : cmd ≠ .jumpToTab := by
        rintro rfl
        exact htab rfl
      have hothers : ∀ other ∈ globalCommands, km.isBound other ev = false := by
        intro other hother
        refine h.isBound_other hin hbound ?_ (globalCommands_contexts hother hsite)
        rintro rfl
        exact hglobal hother
      have htabs : ∀ other : Command, other.isTab = true → km.isBound other ev = false := by
        intro other hother
        refine h.isBound_other hin hbound ?_ (isTab_contexts hother ▸ hsite)
        rintro rfl
        exact htab hother
      have hnot : cmd.isTab = false := Bool.eq_false_iff.2 htab
      rw [dispatch_idle hothers hkeys htabs, h.tabSelects_eq hsite hin hglobal hnot hbound hcancel, if_neg hjump,
        Reaches]
      cases hd : km.countDigit workspace ev with
      | some d => simp [hglobal]
      | none =>
        cases hb : km.begins workspace ev with
        | true => simp [hglobal, hnot]
        | false => cases hk : km.isKept site ev <;> simp [hglobal, hnot]

omit h hsite hin

/-! ## A sequence -/

variable {rows : List Row} {found : Option Command × Option Command} {keys : List Key} {k k' : Key} {r : Row}

/-- The sequence without a count is the one command's that has it. -/
theorem foldl_noteSequence_fst
    (hone : ∀ r ∈ rows, ∀ s, r.trigger = .seq s → seqEq s keys = true → r.command = cmd)
    (hsome : found.1 = some cmd ∨ ∃ r ∈ rows, ∃ s, r.trigger = .seq s ∧ seqEq s keys = true) :
    (rows.foldl (noteSequence keys) found).1 = some cmd := by
  induction rows generalizing found with
  | nil => exact hsome.resolve_right fun ⟨_, hr, _⟩ => List.not_mem_nil hr
  | cons r rows ih =>
    refine ih (fun r' hr' => hone r' (List.mem_cons_of_mem r hr')) ?_
    by_cases hit : ∃ s, r.trigger = .seq s ∧ seqEq s keys = true
    · obtain ⟨s, hs, heq⟩ := hit
      refine .inl ?_
      rw [noteSequence, hs, hone r List.mem_cons_self s hs heq]
      simp only [heq, if_true]
    · refine hsome.imp (fun hfound => ?_) ?_
      · rw [← hfound, noteSequence]
        cases hs : r.trigger with
        | key k => rfl
        | seq s => exact congrArg Prod.fst (if_neg fun heq => hit ⟨s, hs, heq⟩)
        | countSeq s => exact (apply_ite Prod.fst _ _ _).trans (ite_self _)
      · rintro ⟨r', hr', hseq⟩
        rcases List.mem_cons.1 hr' with rfl | hr'
        · exact absurd hseq hit
        · exact ⟨r', hr', hseq⟩

/-- The sequence with a count is no other command's. -/
theorem foldl_noteSequence_snd (hone : ∀ r ∈ rows, ∀ s, r.trigger = .countSeq s → r.command = cmd)
    (hfound : found.2 = none ∨ found.2 = some cmd) :
    (rows.foldl (noteSequence keys) found).2 = none ∨ (rows.foldl (noteSequence keys) found).2 = some cmd := by
  induction rows generalizing found with
  | nil => exact hfound
  | cons r rows ih =>
    refine ih (fun r' hr' => hone r' (List.mem_cons_of_mem r hr')) ?_
    rw [noteSequence]
    cases hs : r.trigger with
    | key k => exact hfound
    | seq s =>
      simp only
      split <;> exact hfound
    | countSeq s =>
      simp only
      split
      · exact .inr (congrArg some (hone r List.mem_cons_self s hs))
      · exact hfound

theorem sequence_mem (hmem : r ∈ km.tabRows workspace) (hr : r.trigger = .seq keys) :
    keys ∈ km.sequenceTriggers workspace :=
  List.mem_filterMap.2 ⟨r, hmem, by rw [hr]; rfl⟩

/-- Both keys of a sequence, from a chord that has not begun. -/
theorem Unambiguous.typeKeys_sequence (h : km.Unambiguous)
    (hcountSeq : ∀ r ∈ km.map, ∀ s, r.trigger = .countSeq s → r.command = .jumpToTab)
    (hr : r ∈ km.map) (htab : r.command.isTab = true) (htrigger : r.trigger = .seq [k, k'])
    (hk : keyEventEq k first = true) (hk' : keyEventEq k' last = true) (hkeys : pending.keys = [])
    (hcount : pending.count = none ∨ r.command = .jumpToTab)
    (hsite : site.context ∈ Command.workspaceContexts)
    (hfirst : ∀ other : Command, site.context ∈ other.contexts → km.isBound other first = false)
    (hdigit : km.countDigit workspace first = none)
    (hglobal : ∀ other ∈ globalCommands, km.isBound other last = false)
    (halt : (altDigit last).isSome = true → ∀ other : Command, other.isTab = true → km.isBound other last = false) :
    km.typeKeys site [first, last] pending =
      ([.pending, .command r.command (if r.command = .jumpToTab then pending.count else none)], {}) := by
  have hmem : r ∈ km.tabRows workspace := h.mem_tabRows.2 ⟨hr, htab⟩
  have hbegins : km.begins workspace first = true := by
    refine List.any_eq_true.2 ⟨_, sequence_mem hmem htrigger, ?_⟩
    exact hk
  have hstart : km.dispatch site first pending = (.pending, { pending with keys := [first] }) := by
    have htabs : ∀ other : Command, other.isTab = true → km.isBound other first = false :=
      fun other hother => hfirst other (isTab_contexts hother ▸ hsite)
    rw [dispatch_idle (fun other hother => hfirst other (globalCommands_contexts hother hsite)) hkeys htabs, hdigit,
      hbegins]
    rfl
  have hextends : ((km.sequenceTriggers workspace).any fun keys =>
      prefixMatches keys [first] && keys[1]?.any (keyEventEq · last)) = true := by
    refine List.any_eq_true.2 ⟨_, sequence_mem hmem htrigger, ?_⟩
    simp [prefixMatches, hk, hk']
  -- two sequences that are typed alike belong to one command
  have hseq : (km.sequenceCommands workspace [first, last]).1 = some r.command := by
    have htyped : seqEq [k, k'] [first, last] = true := seqEq_iff.2 (.cons hk (.cons hk' .nil))
    refine foldl_noteSequence_fst (fun r' hr' s hs heq => ?_) (.inr ⟨r, hmem, _, htrigger, htyped⟩)
    obtain ⟨hr', htab'⟩ := h.mem_tabRows.1 hr'
    refine h.same_command hr' hr ?_ (c := .secretsTree) ?_ ?_
    · rw [hs, htrigger]
      exact seqEq_trans heq (seqEq_symm htyped)
    · rw [isTab_contexts htab']
      decide
    · rw [isTab_contexts htab]
      decide
  have hcounted : (km.sequenceCommands workspace [first, last]).2 = none ∨
      (km.sequenceCommands workspace [first, last]).2 = some .jumpToTab :=
    foldl_noteSequence_snd (fun r' hr' => hcountSeq r' (h.mem_tabRows.1 hr').1) (.inl rfl)
  have hcompleted : km.completedCommand workspace [first, last] pending.count = some r.command := by
    unfold completedCommand
    -- with a count the counted sequences come first, and those are all for jump-to-tab
    rcases hcount with hnone | hjump
    · simp [hnone, hseq]
    · rcases hcounted with hnone | hsome
      · simp [hnone, hseq]
      · simp [hsome, hseq, hjump]
  have hend : km.dispatch site last { pending with keys := [first] } =
      (.command r.command (if r.command = .jumpToTab then pending.count else none), {}) := by
    have hfind : globalCommands.find? (fun cmd => km.isBound cmd last) = none :=
      List.find?_eq_none.2 fun cmd hcmd => Bool.eq_false_iff.1 (hglobal cmd hcmd)
    have hdirect : (if (altDigit last).isSome then
        km.directTabKey workspace last { pending with keys := [first] } else none) = none := by
      split
      · rename_i hsome
        exact directTabKey_none (halt hsome)
      · rfl
    rw [dispatch, hfind]
    simp only [resolve, hdirect, continueSequence]
    simp [hextends, hcompleted]
  simp only [typeKeys, hstart, hend]

end Keymap

namespace Keymap

/-! ## Accepted bindings -/

/-- The patch binds the command, and the keymap has its binding. -/
def Accepted (patch : KeymapPatch) (km : Keymap) (cmd : Command) : Prop :=
  ∃ slot value, (slot, value) ∈ patch.bindings ∧ commandByName slot = some cmd ∧
    parseBindValue value = .ok (km.triggersOf cmd)

variable {km : Keymap} {patch : KeymapPatch} {warnings : List KeymapWarning} {cmd : Command} {site : Site}
  {pending : PendingSeq}

/-- A binding that no warning names is accepted. -/
theorem accepted_of_unnamed (hfrom : fromPatch patch = some (km, warnings)) {slot : Text} {value : BindValue}
    (hbound : (slot, value) ∈ patch.bindings) (hquiet : ∀ w ∈ warnings, ¬ w.Names slot) :
    ∃ cmd, commandByName slot = some cmd ∧ Accepted patch km cmd := by
  obtain ⟨km', warnings', hrun, -, -, hbindings⟩ := fromPatch_settles patch
  cases hrun.symm.trans hfrom
  rcases hbindings slot value hbound with ⟨cmd, hslot, hparse⟩ | ⟨w, hw, hnames⟩
  · exact ⟨cmd, hslot, slot, value, hbound, hslot, hparse⟩
  · exact absurd hnames (hquiet w hw)

/-- The keys of an accepted binding, typed where a chord has not begun. A key selects its command exactly if no count
takes it and, unless it is one that works in every tab, no sequence begins with it and the tab does not keep it. A
sequence selects its motion if its first key is bound to nothing there and no count takes it, and its second is bound
neither to a command of every tab nor, where it is `Alt` and a digit, to a motion. -/
theorem accepted_binding_fires (hfrom : fromPatch patch = some (km, warnings)) (haccepted : Accepted patch km cmd)
    {t : KeyTrigger} (ht : t ∈ km.triggersOf cmd) {evs : List Key} (htyped : seqEq t.keys evs = true)
    (hsite : site.context ∈ Command.workspaceContexts) (hin : site.context ∈ cmd.contexts) (hkeys : pending.keys = [])
    (hcount : pending.count = none ∨ cmd = .jumpToTab) :
    (∃ k ev, t = .key k ∧ evs = [ev] ∧
      ((cmd = .cancel → site.context = .secretsDetail → ∀ other ∈ treeCommands, km.isBound other ev = false) →
        (km.typeKeys site evs pending =
            ([.command cmd (if cmd = .jumpToTab then (altDigit ev).or pending.count else none)], {}) ↔
          km.Reaches site cmd ev))) ∨
    ∃ k k' first last, t = .seq [k, k'] ∧ evs = [first, last] ∧
      (cmd.isTab = true → (∀ other : Command, site.context ∈ other.contexts → km.isBound other first = false) →
        km.countDigit workspace first = none → (∀ other ∈ globalCommands, km.isBound other last = false) →
        ((altDigit last).isSome = true → ∀ other : Command, other.isTab = true → km.isBound other last = false) →
        km.typeKeys site evs pending =
          ([.pending, .command cmd (if cmd = .jumpToTab then pending.count else none)], {})) := by
  have hsettled : km.Unambiguous := by
    obtain ⟨km', warnings', hrun, hunambiguous, -⟩ := fromPatch_settles patch
    cases hrun.symm.trans hfrom
    exact hunambiguous
  obtain ⟨slot, value, -, -, hparse⟩ := haccepted
  obtain ⟨r, hrow, htrigger⟩ := List.mem_map.1 ht
  obtain ⟨hr, hcmd⟩ := List.mem_filter.1 hrow
  obtain rfl : r.command = cmd := of_decide_eq_true hcmd
  have hforall := seqEq_iff.1 htyped
  rcases parseBindValue_shape hparse t ht with ⟨k, rfl⟩ | ⟨k, k', rfl⟩
  · cases hforall with
    | @cons _ ev _ _ hk hrest =>
      cases hrest
      refine .inl ⟨k, ev, rfl, rfl, fun hcancel => ?_⟩
      have hbound : km.isBound r.command ev = true := isBound_iff.2 ⟨r, hr, rfl, k, htrigger, hk⟩
      rw [← hsettled.dispatch_bound hsite hin hbound hkeys hcount hcancel]
      simp only [typeKeys, Prod.ext_iff, List.cons.injEq, and_true]
  · cases hforall with
    | @cons _ first _ _ hk hrest =>
      cases hrest with
      | @cons _ last _ _ hk' hnil =>
        cases hnil
        refine .inr ⟨k, k', first, last, rfl, rfl, fun htab hfirst hdigit hglobal halt => ?_⟩
        exact hsettled.typeKeys_sequence (fun r' hr' s hs =>
          fromPatch_countSeq hfrom hr' hs) hr htab htrigger hk hk' hkeys
          hcount hsite hfirst hdigit hglobal halt

/-- Search on a key that nothing else uses. -/
theorem search_fires_on_ctrl_f : ∃ km warnings,
    fromPatch { bindings := [("search".toList, .one "ctrl+f".toList)], sorted := List.pairwise_singleton _ _ } =
      some (km, warnings) ∧
    km.typeKeys { context := .secretsTree } [{ code := .char 'f', control := true }] {} =
      ([.command .search none], {}) := by
  have run : (fromPatch { bindings := [("search".toList, .one "ctrl+f".toList)]
                          sorted := List.pairwise_singleton _ _ }).map (fun p =>
      (p.1.triggersOf .search, p.1.countDigit workspace { code := .char 'f', control := true },
        p.1.begins workspace { code := .char 'f', control := true },
        p.1.isKept { context := .secretsTree } { code := .char 'f', control := true })) =
      some ([ctrl 'f'], none, false, false) := by decide +kernel
  obtain ⟨km, warnings, hfrom, -, -, -⟩ :=
    fromPatch_settles { bindings := [("search".toList, .one "ctrl+f".toList)], sorted := List.pairwise_singleton _ _ }
  rw [hfrom, Option.map_some] at run
  have hfacts := Option.some.inj run
  simp only [Prod.mk.injEq] at hfacts
  obtain ⟨htriggers, hdigit, hbegins, hkept⟩ := hfacts
  have hparse : parseBindValue (.one "ctrl+f".toList) = .ok [ctrl 'f'] := by decide +kernel
  have haccepted : Accepted { bindings := [("search".toList, .one "ctrl+f".toList)]
                              sorted := List.pairwise_singleton _ _ } km .search :=
    ⟨_, _, List.mem_singleton_self _, commandByName_name .search, hparse.trans (congrArg _ htriggers.symm)⟩
  have hin : ctrl 'f' ∈ km.triggersOf .search := htriggers ▸ List.mem_singleton_self _
  refine ⟨km, warnings, hfrom, ?_⟩
  have htyped : seqEq (ctrl 'f').keys [{ code := .char 'f', control := true }] = true := by decide
  have hsite : ({ context := .secretsTree } : Site).context ∈ Command.workspaceContexts := by decide
  have hidle : ({} : PendingSeq).keys = [] := rfl
  rcases accepted_binding_fires hfrom haccepted hin htyped hsite (by decide) hidle (.inl rfl) with
    ⟨k, ev, hk, hev, hfires⟩ | ⟨k, k', first, last, hseq, -⟩
  · cases hev
    exact (hfires nofun).2 (.inr ⟨hdigit, .inr ⟨hbegins, hkept⟩⟩)
  · cases hseq

/-- `g` begins the sequences of the preset, so search on `g` waits for another key. -/
theorem search_waits_on_g :
    (fromPatch { bindings := [("search".toList, .one ['g'])], sorted := List.pairwise_singleton _ _ }).map (fun p =>
      (p.2.length, p.1.triggersOf .search, Command.each.filter fun cmd => p.1.isBound cmd (chEv 'g'),
        p.1.typeKeys { context := .secretsTree } [chEv 'g'] {})) =
      some (0, [ch 'g'], [.search], [.pending], { keys := [chEv 'g'] }) := by decide +kernel

end Keymap

/-! ## The application -/

namespace App

variable {Form : Type} (fe : Frontend Form) (app : App Form)

/-- Where a key is typed in the workspace. -/
def site : Keymap.Site :=
  ⟨app.currentContext, ¬ app.view.treeMode = .normal, ¬ app.view.marks = ∅⟩

def withPending (pending : PendingSeq) : App Form := app.withView fun view => { view with pendingSeq := pending }

/-- What the application does with a key, by what it is taken for. -/
def onSelected (key : Key) : Keymap.Selected → Ui (App Form)
  | .command cmd count => app.executeCommand fe cmd count
  | .own => app.onSecretsKey fe key
  | .pending | .nothing => return app

variable {fe app} {km : Keymap} {key : Key}

/-- The application's keys are those of the keymap. -/
structure Uses (fe : Frontend Form) (km : Keymap) : Prop where
  isBound : fe.isBound = km.isBound
  resolve : fe.resolve = km.resolve Keymap.workspace

theorem onNavKey_selected (h : Uses fe km) : app.onNavKey fe key =
    app.onSelected fe key (.found (Keymap.navCommands.find? fun cmd => km.isBound cmd key)) := by
  rw [onNavKey, navCommandFor, h.isBound, Keymap.navCommands]
  cases [Command.next, .prev, .parent, .child, .confirm, .cancel].find? fun cmd => km.isBound cmd key with
  | some cmd => rfl
  | none => rfl

theorem onPinnedKey_selected (h : Uses fe km) : app.onPinnedKey fe key =
    app.onSelected fe key (.found ((Keymap.lookupOrder .pinnedTab).find? fun cmd => km.isBound cmd key)) := by
  rw [onPinnedKey, Keymap.lookupOrder, List.find?_append, h.isBound]
  cases [Command.jumpBack, .revealPassword, .history].find? fun cmd => km.isBound cmd key with
  | some cmd => rfl
  | none => exact onNavKey_selected h

/-- A key that is not kept is not one of the tree's or of visual mode. -/
theorem ownKey_false (hpane : app.site.context = .secretsTree ∨ app.site.context = .secretsDetail)
    (hkept : km.isKept app.site key = false) : km.ownKey app.site key = false :=
  Bool.eq_false_iff.2 fun hown => Bool.eq_false_iff.1 hkept (decide_eq_true ⟨hpane, hown⟩)

theorem onNormalSecretsKey_selected (h : Uses fe km)
    (hsite : app.site.context = .secretsTree ∧ app.view.focus = .tree ∨
      app.site.context = .secretsDetail ∧ app.view.focus ≠ .tree)
    (hown : km.ownKey app.site key = false) :
    app.onNormalSecretsKey fe key = app.onSelected fe key
      (.found ((Keymap.lookupOrder app.site.context).find? fun cmd => km.isBound cmd key)) := by
  have hnone := of_decide_eq_false hown
  have hesc : ¬ (app.view.treeMode = .normal ∧ app.view.marks ≠ ∅ ∧ key.code = .esc) := by
    rintro ⟨hnormal, hmarks, hcode⟩
    refine hnone (.inr (.inl ⟨?_, ?_, hcode⟩))
    · simp [site, hnormal]
    · simpa [site] using hmarks
  have hspace : ¬ (app.view.focus = .tree ∧ key.code = .char ' ') := by
    rintro ⟨hfocus, hcode⟩
    exact hnone (.inr (.inr ⟨(hsite.resolve_right fun hdetail => hdetail.2 hfocus).1, hcode⟩))
  unfold onNormalSecretsKey
  rw [if_neg hesc, if_neg hspace, h.isBound]
  rcases hsite with ⟨hcontext, hfocus⟩ | ⟨hcontext, hfocus⟩
  · rw [hcontext, Keymap.lookupOrder]
    simp only [List.cons_append, List.nil_append, List.find?_cons, hfocus, true_and]
    cases km.isBound .focusPane key with
    | true => rfl
    | false =>
      cases km.isBound .jumpBack key with
      | true => rfl
      | false =>
        cases km.isBound .jumpForward key with
        | true => rfl
        | false =>
          rw [List.find?_append]
          cases secretsCommands.find? fun cmd => km.isBound cmd key with
          | some cmd => rfl
          | none => exact onNavKey_selected h
  · rw [hcontext, Keymap.lookupOrder]
    simp only [List.cons_append, List.nil_append, List.find?_cons, hfocus, false_and, if_false]
    cases km.isBound .focusPane key with
    | true => rfl
    | false =>
      cases km.isBound .jumpBack key with
      | true => rfl
      | false =>
        rw [List.find?_append]
        cases secretsCommands.find? fun cmd => km.isBound cmd key with
        | some cmd => rfl
        | none => exact onNavKey_selected h

theorem onSecretsKey_selected (h : Uses fe km)
    (hsite : app.site.context = .secretsTree ∧ app.view.focus = .tree ∨
      app.site.context = .secretsDetail ∧ app.view.focus ≠ .tree) :
    app.onSecretsKey fe key = app.onSelected fe key (km.tabSelects app.site key) := by
  rw [Keymap.tabSelects]
  by_cases hkept : km.isKept app.site key = true
  · rw [if_pos hkept]
    rfl
  · have hown := ownKey_false (hsite.imp And.left And.left) (Bool.eq_false_iff.2 hkept)
    have hvisual : (if app.view.treeMode = .normal then none else app.handleVisualKey fe key) = none := by
      by_cases hnormal : app.view.treeMode = .normal
      · rw [if_pos hnormal]
      · have hnone : ¬ (km.isBound .next key = true ∨ km.isBound .prev key = true ∨ key.code = .char ' ' ∨
          key.code = .esc) :=
          fun hkey => of_decide_eq_false hown (.inl ⟨decide_eq_true hnormal, hkey⟩)
        simp only [not_or] at hnone
        rw [if_neg hnormal, handleVisualKey, h.isBound, if_neg hnone.1, if_neg hnone.2.1, if_neg hnone.2.2.1,
          if_neg hnone.2.2.2]
    rw [if_neg hkept, ← onNormalSecretsKey_selected h hsite hown, onSecretsKey, hvisual]

/-- What the tab does with a key is what it takes it for. -/
theorem onWorkspaceKey_selected (h : Uses fe km) (hphase : app.phase = .workspace) (hclosed : app.overlay = none)
    (hfind : Keymap.globalCommands.find? (fun cmd => km.isBound cmd key) = none) :
    app.onWorkspaceKey fe key = (app.withPending (km.dispatch app.site key app.view.pendingSeq).2).onSelected fe key
      (km.dispatch app.site key app.view.pendingSeq).1 := by
  rw [onWorkspaceKey, h.resolve, Keymap.dispatch, hfind]
  obtain ⟨resolution, pending⟩ := km.resolve Keymap.workspace key app.view.pendingSeq
  cases resolution with
  | command cmd count => rfl
  | pending => rfl
  | none =>
    have hsame : (app.withPending pending).site = app.site := rfl
    cases hactive : app.view.tabs.activeTab with
    | secrets =>
      have hcontext : app.site.context = if app.view.focus = .tree then .secretsTree else .secretsDetail := by
        simp only [site, currentContext, hclosed, hphase, hactive]
      have hsite : app.site.context = .secretsTree ∧ app.view.focus = .tree ∨
          app.site.context = .secretsDetail ∧ app.view.focus ≠ .tree := by
        by_cases hfocus : app.view.focus = .tree
        · exact .inl ⟨hcontext.trans (if_pos hfocus), hfocus⟩
        · exact .inr ⟨hcontext.trans (if_neg hfocus), hfocus⟩
      simp only [withView, hactive]
      exact onSecretsKey_selected h hsite
    | settings =>
      have hcontext : app.site.context = .settingsTab := by
        simp only [site, currentContext, hclosed, hphase, hactive]
      have hkept : km.isKept app.site key = false := by simp [Keymap.isKept, hcontext]
      simp only [withView, hactive, Keymap.tabSelects, hkept, hcontext, Bool.false_eq_true, if_false]
      exact onNavKey_selected h
    | pinned uuid =>
      have hcontext : app.site.context = .pinnedTab := by
        simp only [site, currentContext, hclosed, hphase, hactive]
      have hkept : km.isKept app.site key = false := by simp [Keymap.isKept, hcontext]
      simp only [withView, hactive, Keymap.tabSelects, hkept, hcontext, Bool.false_eq_true, if_false]
      exact onPinnedKey_selected h

/-- In the workspace, the application does with a key what the keymap takes it for. -/
theorem handleKey_selected (h : Uses fe km) (hphase : app.phase = .workspace) (hclosed : app.overlay = none)
    (hpress : key.press = true) :
    app.handleKey fe key = (app.withPending (km.dispatch app.site key app.view.pendingSeq).2).onSelected fe key
      (km.dispatch app.site key app.view.pendingSeq).1 := by
  have hworkspace (hfind : Keymap.globalCommands.find? (fun cmd => km.isBound cmd key) = none) :=
    onWorkspaceKey_selected h hphase hclosed hfind
  unfold handleKey
  rw [if_neg (not_not.2 hpress), h.isBound, hclosed, hphase]
  simp only [Keymap.dispatch, Keymap.globalCommands, List.find?_cons, List.find?_nil, and_true] at hworkspace ⊢
  cases hquit : km.isBound .quit key with
  | true => rfl
  | false =>
    cases hlock : km.isBound .lockNow key with
    | true => rfl
    | false =>
      cases hhelp : km.isBound .help key with
      | true => rfl
      | false =>
        rw [hquit, hlock, hhelp] at hworkspace
        simp only [Bool.false_eq_true, false_and, if_false, onPhaseKey, hphase]
        exact hworkspace rfl

end App

end Falach.Tui
