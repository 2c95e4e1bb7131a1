import Falach.Lib.Overrides
import Falach.Tui.KeyGrammar
/-!
# The keymap

A keymap has rows: a trigger, the command that it triggers, and the contexts that it does so in. It is one of two
presets, with the bindings of a user over it; a binding that would make a trigger ambiguous is given up.
-/

namespace Falach.Tui

/-! ## Contexts -/

namespace Context

/-- Which bit of `Contexts` it is. -/
def bit : Context → Nat
  | .unlockList => 0
  | .unlockPrompt => 1
  | .lockScreen => 2
  | .secretsTree => 3
  | .secretsDetail => 4
  | .pinnedTab => 5
  | .settingsTab => 6
  | .search => 7
  | .edit => 8
  | .history => 9
  | .confirm => 10
  | .palette => 11
  | .syncUnlock => 12
  | .syncConfig => 13

theorem bit_lt (c : Context) : c.bit < 16 := by cases c <;> decide

theorem bit_injective {c c' : Context} (h : c.bit = c'.bit) : c = c' := by
  cases c <;> cases c' <;> first | rfl | cases h

end Context

structure Contexts where
  bits : BitVec 16
deriving DecidableEq

namespace Contexts

def single (c : Context) : Contexts := ⟨1#16 <<< c.bit⟩

/-- `Contexts::or`. -/
def or (a b : Contexts) : Contexts := ⟨a.bits ||| b.bits⟩

/-- `Contexts::contains`: that two sets intersect. -/
def contains (a b : Contexts) : Bool := a.bits &&& b.bits ≠ 0#16

/-- `Contexts::ALL`. -/
def all : Contexts := ⟨(1#16 <<< 14) - 1#16⟩

def of (l : List Context) : Contexts := l.foldr (fun c cs => (single c).or cs) ⟨0#16⟩

variable {c : Context} {l l' : List Context}

theorem getLsbD_single (i : Nat) : (single c).bits.getLsbD i = true ↔ c.bit = i := by
  have hone := BitVec.getLsbD_twoPow (w := 16) c.bit i
  rw [decide_eq_true c.bit_lt, Bool.true_and] at hone
  exact (Bool.eq_iff_iff.1 hone).trans decide_eq_true_iff

theorem getLsbD_of (i : Nat) : (of l).bits.getLsbD i = true ↔ ∃ c ∈ l, c.bit = i := by
  induction l with
  | nil => simp [of]
  | cons c l ih =>
    have hor : (of (c :: l)).bits.getLsbD i = ((single c).bits.getLsbD i || (of l).bits.getLsbD i) :=
      BitVec.getLsbD_or
    rw [hor, Bool.or_eq_true, getLsbD_single, ih]
    exact (List.exists_mem_cons_iff (fun c => c.bit = i) c l).symm

/-- Two sets intersect if a context is in both. -/
theorem contains_of : (of l).contains (of l') = true ↔ ∃ c ∈ l, c ∈ l' := by
  have hboth (i : Nat) : ((of l).bits &&& (of l').bits).getLsbD i = true ↔
      (∃ c ∈ l, c.bit = i) ∧ ∃ c ∈ l', c.bit = i := by
    rw [BitVec.getLsbD_and, Bool.and_eq_true, getLsbD_of, getLsbD_of]
  rw [contains, decide_eq_true_eq]
  constructor
  · intro hne
    by_contra hnone
    refine hne (BitVec.eq_of_getLsbD_eq fun i _ => ?_)
    rw [BitVec.getLsbD_zero, ← Bool.not_eq_true, hboth]
    rintro ⟨⟨c, hc, hi⟩, c', hc', hi'⟩
    exact hnone ⟨c, hc, Context.bit_injective (hi.trans hi'.symm) ▸ hc'⟩
  · rintro ⟨c, hc, hc'⟩ hzero
    have hbit := (hboth c.bit).2 ⟨⟨c, hc, rfl⟩, c, hc', rfl⟩
    rw [hzero, BitVec.getLsbD_zero] at hbit
    cases hbit

theorem contains_symm {a b : Contexts} (h : a.contains b = true) : b.contains a = true := by
  rw [contains, BitVec.and_comm]
  exact h

end Contexts

/-! ## The registry -/

namespace Command

/-- The `name` of the command in `COMMANDS`. -/
def name : Command → Text
  | .quit => "quit".toList
  | .lockNow => "lock-now".toList
  | .help => "help".toList
  | .cancel => "cancel".toList
  | .confirm => "confirm".toList
  | .next => "next".toList
  | .prev => "prev".toList
  | .parent => "parent".toList
  | .child => "child".toList
  | .jumpBack => "jump-back".toList
  | .jumpForward => "jump-forward".toList
  | .nextTab => "next-tab".toList
  | .prevTab => "prev-tab".toList
  | .jumpToTab => "jump-to-tab".toList
  | .cycleScope => "cycle-scope".toList
  | .quickSelect => "quick-select".toList
  | .openEntry => "open-entry".toList
  | .focusPane => "focus-pane".toList
  | .search => "search".toList
  | .addEntry => "add-entry".toList
  | .editEntry => "edit-entry".toList
  | .deleteEntry => "delete-entry".toList
  | .copyPassword => "copy-password".toList
  | .copyUsername => "copy-username".toList
  | .revealPassword => "reveal-password".toList
  | .history => "history".toList
  | .pinToggle => "pin-toggle".toList
  | .sortCycle => "sort-cycle".toList
  | .visualMode => "visual-mode".toList
  | .moveToGroup => "move-to-group".toList
  | .addTag => "add-tag".toList
  | .removeTag => "remove-tag".toList
  | .sync => "sync".toList
  | .generate => "generate".toList

/-- The commands, in the order of `COMMANDS`. -/
def each : List Command :=
  [quit, lockNow, help, cancel, confirm, next, prev, parent, child, jumpBack, jumpForward, nextTab, prevTab, jumpToTab,
    cycleScope, quickSelect, openEntry, focusPane, search, addEntry, editEntry, deleteEntry, copyPassword, copyUsername,
    revealPassword, history, pinToggle, sortCycle, visualMode, moveToGroup, addTag, removeTag, sync, generate]

end Command

structure CommandSpec where
  id : Command
  name : Text
  contexts : Contexts

/-- `COMMANDS`. -/
def commandSpecs : List CommandSpec := Command.each.map fun c => ⟨c, c.name, .of c.contexts⟩

def specFor (id : Command) : Option CommandSpec := commandSpecs.find? fun s => s.id = id

def commandByName (name : Text) : Option Command := (commandSpecs.find? fun s => s.name = name).map CommandSpec.id

theorem specFor_eq (cmd : Command) : specFor cmd = some ⟨cmd, cmd.name, .of cmd.contexts⟩ := by cases cmd <;> rfl

theorem Command.mem_each (cmd : Command) : cmd ∈ each := by cases cmd <;> decide

theorem commandByName_name (cmd : Command) : commandByName cmd.name = some cmd := by
  have hall : (Command.each.all fun c => commandByName c.name = some c) = true := by decide +kernel
  exact of_decide_eq_true (List.all_eq_true.1 hall cmd cmd.mem_each)

theorem commandByName_eq {slot : Text} {cmd : Command} (h : commandByName slot = some cmd) : cmd.name = slot := by
  obtain ⟨spec, hfind, rfl⟩ := Option.map_eq_some_iff.1 h
  have hname := of_decide_eq_true (List.find?_some (p := fun s : CommandSpec => decide (s.name = slot)) hfind)
  obtain ⟨c, -, rfl⟩ := List.mem_map.1 (List.mem_of_find?_eq_some hfind)
  exact hname

/-! ## Rows -/

/-- A row of a keymap. -/
structure Keymap.Row where
  contexts : Contexts
  trigger : KeyTrigger
  command : Command
deriving DecidableEq

structure Keymap where
  map : List Keymap.Row

inductive Preset where
  | vim
  | plain
deriving DecidableEq

namespace Keymap

def chEv (c : Char) : Key := { code := .char c }
def ch (c : Char) : KeyTrigger := .key (chEv c)
def ctrl (c : Char) : KeyTrigger := .key { code := .char c, control := true }
def alt (c : Char) : KeyTrigger := .key { code := .char c, alt := true }
def code (code : KeyCode) : KeyTrigger := .key { code }
def altCode (code : KeyCode) : KeyTrigger := .key { code, alt := true }

def altDigitJumps : List (Command × KeyTrigger) := "123456789".toList.map fun d => (.jumpToTab, alt d)

/-- What the presets have in common. -/
def commonPairs : List (Command × KeyTrigger) :=
  [(.quit, ctrl 'q'), (.lockNow, ctrl 'l'), (.help, ch '?'), (.cancel, code .esc), (.confirm, code .enter),
    (.next, ch 'j'), (.next, code .down), (.prev, ch 'k'), (.prev, code .up), (.parent, ch 'h'), (.parent, code .left),
    (.child, ch 'l'), (.child, code .right), (.jumpBack, ctrl 'o'), (.jumpBack, altCode .left),
      (.jumpForward, ctrl 'i'),
    (.jumpForward, altCode .right), (.cycleScope, ctrl 's'), (.openEntry, code .tab), (.quickSelect, alt '1'),
    (.quickSelect, alt '2'), (.quickSelect, alt '3'), (.quickSelect, alt '4'), (.quickSelect, alt '5'),
    (.quickSelect, alt '6'), (.quickSelect, alt '7'), (.quickSelect, alt '8'), (.quickSelect, alt '9'),
    (.focusPane, code .tab), (.search, ch '/'), (.addEntry, ch 'a'), (.editEntry, ch 'e'), (.deleteEntry, ch 'd'),
    (.copyPassword, ch 'c'), (.copyUsername, ch 'C'), (.revealPassword, ch ' '), (.history, ch 'H'),
      (.pinToggle, ch 'p'),
    (.sortCycle, ch 'o'), (.visualMode, ch 'v'), (.moveToGroup, ch 'm'), (.addTag, ch 't'), (.removeTag, ch 'T'),
    (.sync, ch 's'), (.generate, ctrl 'g')]

def presetPairs : Preset → List (Command × KeyTrigger)
  | .vim => [(.nextTab, .seq [chEv 'g', chEv 't']), (.prevTab, .seq [chEv 'g', chEv 'T']),
      (.jumpToTab, .countSeq [chEv 'g', chEv 't'])]
  | .plain => [(.nextTab, ch ']'), (.prevTab, ch '['), (.help, code (.f 1))]

/-- `Keymap::preset`; `none` is a panic. -/
def preset (p : Preset) : Option Keymap := do
  let map ← (commonPairs ++ presetPairs p ++ altDigitJumps).mapM fun pair =>
    (specFor pair.1).map fun spec => Row.mk spec.contexts pair.2 pair.1
  return ⟨map⟩

variable (km : Keymap) (cmd : Command)

/-- The triggers of a command. -/
def triggersOf : List KeyTrigger := (km.map.filter fun r => r.command = cmd).map Row.trigger

def rebind (triggers : List KeyTrigger) : Keymap :=
  ⟨(km.map.filter fun r => r.command ≠ cmd) ++
    triggers.map fun t => ⟨((specFor cmd).map CommandSpec.contexts).getD .all, t, cmd⟩⟩

def restore (original : List Row) : Keymap :=
  ⟨(km.map.filter fun r => r.command ≠ cmd) ++ original.filter fun r => r.command = cmd⟩

def firstConflict : Option (Command × Text) :=
  (km.map.filter fun r => r.command = cmd).findSome? fun ri =>
    km.map.findSome? fun rj =>
      if rj.command = cmd then none
      else if ri.contexts.contains rj.contexts ∧ triggersConflict ri.trigger rj.trigger then
        some (rj.command, renderGrammar ri.trigger)
      else none

end Keymap

/-! ## Patches -/

/-- A binding of a slot: none, a key, or several. -/
inductive BindValue where
  | unbind (b : Bool)
  | one (s : Text)
  | many (list : List Text)

/-- A `KeymapPatch`; its bindings are a map with its keys in order. -/
structure KeymapPatch where
  preset : Option Preset := none
  bindings : List (Text × BindValue) := []
  sorted : (bindings.map Prod.fst).Pairwise (· < ·)

def parseBindValue : BindValue → Except Unit (List KeyTrigger)
  | .unbind false => .ok []
  | .unbind true => .error ()
  | .one s => do
    let t ← (parseKey s).mapError fun _ => ()
    return [t]
  | .many list => list.mapM fun s => (parseKey s).mapError fun _ => ()

structure KeymapWarning where
  message : Text

namespace KeymapWarning

def quoted (s : Text) : Text := "`".toList ++ s ++ "`".toList

/-- The slot is no command. -/
def unknownSlot (slot : Text) : KeymapWarning := ⟨"unknown keymap slot ".toList ++ quoted slot ++ " (ignored)".toList⟩

/-- The binding of the slot is not understood. -/
def invalidBinding (slot : Text) : KeymapWarning := ⟨quoted slot ++ ": invalid key binding (ignored)".toList⟩

/-- The binding of the command `a` is given up, for its conflict with `b`. -/
def rebindRejected (a b key : Text) : KeymapWarning :=
  ⟨quoted a ++ " and ".toList ++ quoted b ++ " both bind ".toList ++ quoted key ++ " — ".toList ++ quoted a ++
    " rebind rejected, default kept".toList⟩

/-- The warning names the slot. -/
def Names (w : KeymapWarning) (slot : Text) : Prop := quoted slot <:+: w.message

theorem unknownSlot_names (slot : Text) : (unknownSlot slot).Names slot := ⟨_, _, rfl⟩

theorem invalidBinding_names (slot : Text) : (invalidBinding slot).Names slot := ⟨[], _, rfl⟩

theorem rebindRejected_names (a b key : Text) : (rebindRejected a b key).Names a := by
  refine ⟨[], " and ".toList ++ quoted b ++ " both bind ".toList ++ quoted key ++ " — ".toList ++ quoted a ++
    " rebind rejected, default kept".toList, ?_⟩
  simp only [rebindRejected, List.nil_append, List.append_assoc]

end KeymapWarning

namespace Keymap

/-- What the loop over the bindings keeps. -/
structure Patching where
  km : Keymap
  warnings : List KeymapWarning := []
  rebound : List Command := []

/-- The step of the loop over the bindings. -/
def bindSlot (p : Patching) (binding : Text × BindValue) : Patching :=
  match commandByName binding.1 with
  | none => { p with warnings := p.warnings ++ [.unknownSlot binding.1] }
  | some cmd =>
    match parseBindValue binding.2 with
    | .ok triggers => { p with km := p.km.rebind cmd triggers, rebound := p.rebound ++ [cmd] }
    | .error () => { p with warnings := p.warnings ++ [.invalidBinding binding.1] }

def nameOf (cmd : Command) : Text := ((specFor cmd).map CommandSpec.name).getD "?".toList

/-- The loop that rejects rebinds: the first command with a conflict gets its rows of the preset back. -/
def rejectConflicts (original : List Row) (active : List Command) (km : Keymap) (warnings : List KeymapWarning) :
    Option (Keymap × List KeymapWarning) :=
  match active.findFinIdx? fun cmd => (km.firstConflict cmd).isSome with
  | none => some (km, warnings)
  | some pos =>
    match km.firstConflict active[pos] with
    | none => none
    | some (other, key) =>
      rejectConflicts original (active.eraseIdx pos) (km.restore active[pos] original)
        (warnings ++ [.rebindRejected (nameOf active[pos]) (nameOf other) key])
termination_by active.length
decreasing_by
  rw [List.length_eraseIdx_of_lt pos.isLt]
  exact Nat.pred_lt (Nat.ne_of_gt pos.pos)

/-- `Keymap::from_patch`; `none` is a panic. -/
def fromPatch (patch : KeymapPatch) : Option (Keymap × List KeymapWarning) := do
  let km ← preset (patch.preset.getD .vim)
  let patched := patch.bindings.foldl bindSlot { km }
  rejectConflicts km.map patched.rebound patched.km patched.warnings

/-! ## What a row conflicts with -/

/-- Two rows have an equal trigger in a context of both. -/
def Row.Clashes (r r' : Row) : Prop :=
  r.contexts.contains r'.contexts = true ∧ triggersConflict r.trigger r'.trigger = true

theorem Row.Clashes.symm {r r' : Row} (h : r.Clashes r') : r'.Clashes r :=
  ⟨Contexts.contains_symm h.1, triggersConflict_symm h.2⟩

theorem firstConflict_eq_none {km : Keymap} {cmd : Command} (h : km.firstConflict cmd = none) :
    ∀ r ∈ km.map, r.command = cmd → ∀ r' ∈ km.map, r.command ≠ r'.command → ¬ r.Clashes r' := by
  intro r hr hcmd r' hr' hne hclash
  have hrow := List.findSome?_eq_none_iff.1 h r (List.mem_filter.2 ⟨hr, decide_eq_true hcmd⟩)
  have hpair := List.findSome?_eq_none_iff.1 hrow r' hr'
  rw [if_neg fun hother => hne (hcmd.trans hother.symm), if_pos ⟨hclash.1, hclash.2⟩] at hpair
  cases hpair

/-! ## The presets -/

/-- The rows of a preset. -/
def presetRows (p : Preset) : List Row :=
  (commonPairs ++ presetPairs p ++ altDigitJumps).map fun pair => ⟨.of pair.1.contexts, pair.2, pair.1⟩

theorem preset_eq (p : Preset) : preset p = some ⟨presetRows p⟩ := by
  have hspec : (fun pair : Command × KeyTrigger => (specFor pair.1).map fun spec =>
    Row.mk spec.contexts pair.2 pair.1) =
      fun pair => some ⟨.of pair.1.contexts, pair.2, pair.1⟩ := by
    funext pair
    rw [specFor_eq]
    rfl
  have hrows : (commonPairs ++ presetPairs p ++ altDigitJumps).mapM (fun pair : Command × KeyTrigger =>
      some (Row.mk (.of pair.1.contexts) pair.2 pair.1)) = some (presetRows p) := List.mapM_pure
  unfold preset
  rw [hspec, hrows]
  rfl

theorem presetRows_offered {p : Preset} {r : Row} (h : r ∈ presetRows p) : r.contexts = .of r.command.contexts := by
  obtain ⟨pair, -, rfl⟩ := List.mem_map.1 h
  rfl

/-- A preset has no conflicts. -/
theorem presetRows_apart (p : Preset) : Overrides.Apart Row.command Row.Clashes (presetRows p) := by
  have hall : ((presetRows p).all fun r => (presetRows p).all fun r' =>
      r.command = r'.command || !(triggersConflict r.trigger r'.trigger && r.contexts.contains r'.contexts)) =
        true := by
    cases p <;> decide +kernel
  intro r hr r' hr' hne hclash
  have hpair := List.all_eq_true.1 (List.all_eq_true.1 hall r hr) r' hr'
  rw [decide_eq_false hne, hclash.1, hclash.2] at hpair
  cases hpair

/-! ## Rebinding -/

variable {km : Keymap} {cmd : Command} {triggers : List KeyTrigger}

/-- The rows of a command that is rebound. -/
def boundRows (cmd : Command) (triggers : List KeyTrigger) : List Row :=
  triggers.map fun t => ⟨.of cmd.contexts, t, cmd⟩

theorem boundRows_command : ∀ r ∈ boundRows cmd triggers, r.command = cmd := by
  intro r hr
  obtain ⟨t, -, rfl⟩ := List.mem_map.1 hr
  rfl

theorem rebind_map : (km.rebind cmd triggers).map =
    Overrides.replace Row.command cmd (boundRows cmd triggers) km.map := by
  unfold rebind
  rw [specFor_eq]
  rfl

theorem triggersOf_rebind : (km.rebind cmd triggers).triggersOf cmd = triggers := by
  have hrows : Overrides.rowsOf Row.command cmd (km.rebind cmd triggers).map = boundRows cmd triggers := by
    rw [rebind_map]
    exact Overrides.rowsOf_replace_self boundRows_command
  calc (km.rebind cmd triggers).triggersOf cmd = (boundRows cmd triggers).map Row.trigger :=
        congrArg (List.map Row.trigger) hrows
    _ = triggers := by rw [boundRows, List.map_map]; exact List.map_id _

theorem triggersOf_congr {km' : Keymap}
    (h : Overrides.rowsOf Row.command cmd km.map = Overrides.rowsOf Row.command cmd km'.map) :
    km.triggersOf cmd = km'.triggersOf cmd := congrArg (List.map Row.trigger) h

theorem rowsOf_rebind_ne {other : Command} (hne : other ≠ cmd) :
    Overrides.rowsOf Row.command other (km.rebind cmd triggers).map = Overrides.rowsOf Row.command other km.map := by
  rw [rebind_map]
  exact Overrides.rowsOf_replace_ne boundRows_command hne

/-! ## The loop over the bindings -/

variable {base : List Row} {bound : List (Text × BindValue)} {binding : Text × BindValue} {p : Patching}

/-- What the loop has done once it has gone through these bindings. -/
structure Patching.Follows (base : List Row) (bound : List (Text × BindValue)) (p : Patching) : Prop where
  kept : ∀ cmd ∉ p.rebound, Overrides.rowsOf Row.command cmd p.km.map = Overrides.rowsOf Row.command cmd base
  taken : ∀ cmd ∈ p.rebound, ∃ value, (cmd.name, value) ∈ bound ∧ parseBindValue value = .ok (p.km.triggersOf cmd)
  offered : ∀ r ∈ p.km.map, r.contexts = .of r.command.contexts
  answered : ∀ b ∈ bound, (∃ cmd ∈ p.rebound, cmd.name = b.1) ∨ ∃ w ∈ p.warnings, w.Names b.1
  nodup : p.rebound.Nodup

/-- A slot that no binding before had. -/
theorem Patching.Follows.bindSlot (h : p.Follows base bound) (hnew : binding.1 ∉ bound.map Prod.fst) :
    (bindSlot p binding).Follows base (bound ++ [binding]) := by
  have warned (w : KeymapWarning) (hw : w.Names binding.1) :
      Patching.Follows base (bound ++ [binding]) { p with warnings := p.warnings ++ [w] } := by
    refine ⟨h.kept, fun cmd hcmd => ?_, h.offered, fun b hb => ?_, h.nodup⟩
    · obtain ⟨value, hvalue, hparse⟩ := h.taken cmd hcmd
      exact ⟨value, List.mem_append_left _ hvalue, hparse⟩
    · rcases List.mem_append.1 hb with hb | hb
      · refine (h.answered b hb).imp_right ?_
        rintro ⟨w', hw', hnames⟩
        exact ⟨w', List.mem_append_left _ hw', hnames⟩
      · cases List.mem_singleton.1 hb
        exact .inr ⟨w, List.mem_append_right _ (List.mem_singleton_self w), hw⟩
  unfold Keymap.bindSlot
  cases hslot : commandByName binding.1 with
  | none => exact warned _ (KeymapWarning.unknownSlot_names _)
  | some cmd =>
    cases hvalue : parseBindValue binding.2 with
    | error e => exact warned _ (KeymapWarning.invalidBinding_names _)
    | ok triggers =>
      have hname : cmd.name = binding.1 := commandByName_eq hslot
      -- a command has one slot, so it has not been bound before
      have hfresh : cmd ∉ p.rebound := by
        intro hin
        obtain ⟨value, hmem, -⟩ := h.taken cmd hin
        exact hnew (hname ▸ List.mem_map_of_mem hmem)
      have hother {other : Command} (hin : other ∈ p.rebound) : other ≠ cmd := fun he => hfresh (he ▸ hin)
      refine ⟨fun other hout => ?_, fun other hin => ?_, fun r hr => ?_, fun b hb => ?_, ?_⟩
      · have hne : other ≠ cmd := fun he => hout (List.mem_append_right _ (List.mem_singleton.2 he))
        exact (rowsOf_rebind_ne hne).trans (h.kept other fun hin => hout (List.mem_append_left _ hin))
      · rcases List.mem_append.1 hin with hin | hin
        · obtain ⟨value, hmem, hparse⟩ := h.taken other hin
          refine ⟨value, List.mem_append_left _ hmem, ?_⟩
          rw [hparse, triggersOf_congr (rowsOf_rebind_ne (hother hin))]
        · cases List.mem_singleton.1 hin
          refine ⟨binding.2, List.mem_append_right _ (List.mem_singleton.2 (by rw [hname])), ?_⟩
          rw [hvalue, triggersOf_rebind]
      · rw [rebind_map] at hr
        rcases List.mem_append.1 hr with hr | hr
        · exact h.offered r (List.mem_of_mem_filter hr)
        · obtain ⟨t, -, rfl⟩ := List.mem_map.1 hr
          rfl
      · rcases List.mem_append.1 hb with hb | hb
        · refine (h.answered b hb).imp_left ?_
          rintro ⟨other, hin, hother⟩
          exact ⟨other, List.mem_append_left _ hin, hother⟩
        · cases List.mem_singleton.1 hb
          exact .inl ⟨cmd, List.mem_append_right _ (List.mem_singleton_self cmd), hname⟩
      · exact h.nodup.append (List.nodup_singleton cmd) (List.disjoint_singleton.2 hfresh)

/-- The loop goes through all bindings of a patch. -/
theorem foldl_follows (preset : Preset) (hn : (bound.map Prod.fst).Nodup) :
    (bound.foldl bindSlot { km := ⟨presetRows preset⟩ }).Follows (presetRows preset) bound := by
  induction bound using List.reverseRecOn with
  | nil => exact ⟨fun _ _ => rfl, fun _ h => absurd h List.not_mem_nil, fun _ => presetRows_offered,
      fun _ h => absurd h List.not_mem_nil, List.nodup_nil⟩
  | append_singleton bound binding ih =>
    rw [List.map_append, List.map_singleton] at hn
    have hnew : binding.1 ∉ bound.map Prod.fst := fun hin =>
      (List.nodup_append'.1 hn).2.2 hin (List.mem_singleton_self _)
    rw [List.foldl_append]
    exact (ih (List.nodup_append'.1 hn).1).bindSlot hnew

/-! ## The loop that rejects -/

theorem nameOf_eq (cmd : Command) : nameOf cmd = cmd.name := by rw [nameOf, specFor_eq]; rfl

/-- The loop ends, and gives up bindings until no command that is left conflicts. -/
theorem rejectConflicts_settles {overrides : List Row} {active : List Command} (warnings : List KeymapWarning)
    (h : Overrides.Picks Row.command base overrides active km.map) (hn : active.Nodup) :
    ∃ km' warnings' active', rejectConflicts base active km warnings = some (km', warnings') ∧
      Overrides.Picks Row.command base overrides active' km'.map ∧ (∀ w ∈ warnings, w ∈ warnings') ∧
      (∀ cmd ∈ active', cmd ∈ active ∧ km'.firstConflict cmd = none) ∧
      ∀ cmd ∈ active, cmd ∈ active' ∨ ∃ w ∈ warnings', w.Names cmd.name := by
  induction active, km, warnings using rejectConflicts.induct base with
  | case1 active km warnings hfind =>
    refine ⟨km, warnings, active, ?_, h, fun _ => id, fun cmd hcmd => ?_, fun cmd hcmd => .inl hcmd⟩
    · rw [rejectConflicts, hfind]
    · exact ⟨hcmd, Option.not_isSome_iff_eq_none.1 (List.findFinIdx?_eq_none_iff.1 hfind cmd hcmd)⟩
  | case2 active km warnings pos hfind hnone =>
    have hconflict := (List.findFinIdx?_eq_some_iff.1 hfind).1
    rw [hnone] at hconflict
    cases hconflict
  | case3 active km warnings pos hfind other key hsome ih =>
    obtain ⟨km', warnings', active', hrun, hpicks, hwarnings, hnone, hgone⟩ :=
      ih (h.restore hn pos.isLt) (hn.eraseIdx pos)
    refine ⟨km', warnings', active', ?_, hpicks, fun w hw => hwarnings w (List.mem_append_left _ hw), fun cmd hin =>
      ?_, ?_⟩
    · rw [rejectConflicts, hfind]
      simp only [hsome, hrun]
    · exact ⟨List.mem_of_mem_eraseIdx (hnone cmd hin).1, (hnone cmd hin).2⟩
    · intro cmd hin
      by_cases he : cmd = active[pos]
      · refine .inr ⟨_, hwarnings _ (List.mem_append_right _ (List.mem_singleton_self _)), ?_⟩
        rw [he, nameOf_eq]
        exact KeymapWarning.rebindRejected_names _ _ _
      · refine hgone cmd ?_
        rw [← hn.erase_getElem pos pos.isLt]
        exact (hn.mem_erase_iff).2 ⟨he, hin⟩

/-! ## Patched keymaps -/

/-- No two commands have an equal trigger in a context of both. -/
structure Unambiguous (km : Keymap) : Prop where
  offered : ∀ r ∈ km.map, r.contexts = .of r.command.contexts
  apart : Overrides.Apart Row.command Row.Clashes km.map

/-- Where a keymap is unambiguous, equal triggers in a context of both are of one command. -/
theorem Unambiguous.same_command (h : km.Unambiguous) {r r' : Row} (hr : r ∈ km.map) (hr' : r' ∈ km.map)
    (hconflict : triggersConflict r.trigger r'.trigger = true) {c : Context} (hc : c ∈ r.command.contexts)
    (hc' : c ∈ r'.command.contexts) : r.command = r'.command := by
  by_contra hne
  refine h.apart r hr r' hr' hne ⟨?_, hconflict⟩
  rw [h.offered r hr, h.offered r' hr']
  exact Contexts.contains_of.2 ⟨c, hc, hc'⟩

/-- Where a keymap is unambiguous, a key triggers at most one command of a context. -/
theorem Unambiguous.command_unique (h : km.Unambiguous) {r r' : Row} (hr : r ∈ km.map) (hr' : r' ∈ km.map)
    {k k' ev : Key} (hk : r.trigger = .key k) (hk' : r'.trigger = .key k') (he : keyEventEq k ev = true)
    (he' : keyEventEq k' ev = true) {c : Context} (hc : c ∈ r.command.contexts) (hc' : c ∈ r'.command.contexts) :
    r.command = r'.command := by
  refine h.same_command hr hr' ?_ hc hc'
  rw [hk, hk']
  exact keyEventEq_trans he (keyEventEq_symm he')

/-- What both loops leave: the commands that are still `active` have the triggers of their bindings. -/
theorem fromPatch_spec (patch : KeymapPatch) : ∃ p km warnings active, fromPatch patch = some (km, warnings) ∧
    Patching.Follows (presetRows (patch.preset.getD .vim)) patch.bindings p ∧
    Overrides.Picks Row.command (presetRows (patch.preset.getD .vim)) p.km.map active km.map ∧ km.Unambiguous ∧
    (∀ w ∈ p.warnings, w ∈ warnings) ∧ (∀ cmd ∈ active, cmd ∈ p.rebound) ∧
    ∀ cmd ∈ p.rebound, cmd ∈ active ∨ ∃ w ∈ warnings, w.Names cmd.name := by
  have hpatched := foldl_follows (patch.preset.getD .vim) (patch.sorted.imp fun hlt => ne_of_lt hlt)
  generalize hp : patch.bindings.foldl bindSlot { km := ⟨presetRows (patch.preset.getD .vim)⟩ } = p at hpatched
  obtain ⟨km, warnings, active, hrun, hpicks, hwarnings, hnone, hgone⟩ :=
    rejectConflicts_settles p.warnings (Overrides.Picks.start hpatched.kept) hpatched.nodup
  have hfrom : fromPatch patch = some (km, warnings) := by
    unfold fromPatch
    rw [preset_eq, ← hrun, ← hp]
    rfl
  refine ⟨p, km, warnings, active, hfrom, hpatched, hpicks, ⟨fun r hr => ?_, ?_⟩, hwarnings, fun cmd hin => ?_, hgone⟩
  · rcases hpicks.mem hr with hr | hr
    · exact presetRows_offered hr
    · exact hpatched.offered r hr
  · exact hpicks.apart Row.Clashes.symm (presetRows_apart _) fun r hr hin =>
      firstConflict_eq_none (hnone _ hin).2 r hr rfl
  · exact (hnone cmd hin).1

/-- The keymap that a patch gives. -/
theorem fromPatch_settles (patch : KeymapPatch) : ∃ km warnings, fromPatch patch = some (km, warnings) ∧
    km.Unambiguous ∧
    (∀ cmd, km.triggersOf cmd = triggersOf ⟨presetRows (patch.preset.getD .vim)⟩ cmd ∨
      ∃ value, (cmd.name, value) ∈ patch.bindings ∧ parseBindValue value = .ok (km.triggersOf cmd)) ∧
    ∀ slot value, (slot, value) ∈ patch.bindings →
      (∃ cmd, commandByName slot = some cmd ∧ parseBindValue value = .ok (km.triggersOf cmd)) ∨
        ∃ w ∈ warnings, w.Names slot := by
  obtain ⟨p, km, warnings, active, hfrom, hpatched, hpicks, hsettled, hwarnings, hactive, hgone⟩ := fromPatch_spec patch
  have requested {cmd : Command} (hin : cmd ∈ active) :
      ∃ value, (cmd.name, value) ∈ patch.bindings ∧ parseBindValue value = .ok (km.triggersOf cmd) := by
    rw [triggersOf_congr (hpicks.taken hin)]
    exact hpatched.taken cmd (hactive cmd hin)
  refine ⟨km, warnings, hfrom, hsettled, fun cmd => ?_, ?_⟩
  · by_cases hin : cmd ∈ active
    · exact .inr (requested hin)
    · exact .inl (triggersOf_congr (hpicks.kept hin))
  · intro slot value hbound
    rcases hpatched.answered _ hbound with ⟨cmd, hin, rfl⟩ | ⟨w, hw, hnames⟩
    · rcases hgone cmd hin with hactive | ⟨w, hw, hnames⟩
      · obtain ⟨value', hbound', hparse⟩ := requested hactive
        -- slots are distinct, so it is the binding of this slot
        have hsorted : (patch.bindings.map Prod.fst).Nodup := patch.sorted.imp fun hlt => ne_of_lt hlt
        have hsame : (cmd.name, value') = (cmd.name, value) := List.inj_on_of_nodup_map hsorted hbound' hbound rfl
        cases hsame
        exact .inl ⟨cmd, commandByName_name cmd, hparse⟩
      · exact .inr ⟨w, hw, hnames⟩
    · exact .inr ⟨w, hwarnings w hw, hnames⟩

/-- A value is for keys and sequences of two. -/
theorem parseBindValue_shape {value : BindValue} {triggers : List KeyTrigger}
    (h : parseBindValue value = .ok triggers) :
    ∀ t ∈ triggers, (∃ k, t = .key k) ∨ ∃ first last, t = .seq [first, last] := by
  have hread {s : Text} {t : KeyTrigger} (hs : (parseKey s).mapError (fun _ => ()) = .ok t) :
      (∃ k, t = .key k) ∨ ∃ first last, t = .seq [first, last] := by
    cases hparse : parseKey s with
    | error e =>
      rw [hparse] at hs
      cases hs
    | ok t' =>
      rw [hparse] at hs
      cases hs
      exact parseKey_shape hparse
  intro t ht
  cases value with
  | unbind b =>
    cases b with
    | false =>
      cases h
      cases ht
    | true => cases h
  | one s =>
    obtain ⟨t', ht', hone⟩ := Loop.bind_ok.1 h
    cases hone
    cases List.mem_singleton.1 ht
    exact hread ht'
  | many list =>
    obtain ⟨s, -, hs⟩ := Loop.mapM_ok_of_mem h ht
    exact hread hs

def isCountSeq : KeyTrigger → Bool
  | .countSeq _ => true
  | _ => false

/-- Only the jump to a tab takes a count before its sequence. -/
theorem fromPatch_countSeq {patch : KeymapPatch} {warnings : List KeymapWarning}
    (h : fromPatch patch = some (km, warnings))
    {r : Row} (hr : r ∈ km.map) {keys : List Key} (htrigger : r.trigger = .countSeq keys) : r.command = .jumpToTab := by
  obtain ⟨km', warnings', hfrom, -, htriggers, -⟩ := fromPatch_settles patch
  cases hfrom.symm.trans h
  have hin : .countSeq keys ∈ km.triggersOf r.command :=
    List.mem_map.2 ⟨r, List.mem_filter.2 ⟨hr, decide_eq_true rfl⟩, htrigger⟩
  rcases htriggers r.command with hpreset | ⟨value, -, hparse⟩
  · rw [hpreset] at hin
    obtain ⟨r', hr', htrigger'⟩ := List.mem_map.1 hin
    obtain ⟨hbase, hcmd⟩ := List.mem_filter.1 hr'
    have hall : ((presetRows (patch.preset.getD .vim)).all fun r =>
        !isCountSeq r.trigger || decide (r.command = .jumpToTab)) = true := by
      cases patch.preset.getD .vim <;> decide +kernel
    have hrow := List.all_eq_true.1 hall r' hbase
    rw [htrigger'] at hrow
    exact (of_decide_eq_true hcmd).symm.trans (of_decide_eq_true hrow)
  · rcases parseBindValue_shape hparse _ hin with ⟨k, hk⟩ | ⟨first, last, hseq⟩
    · cases hk
    · cases hseq

/-- A patch gives a keymap in which no two commands have an equal trigger in a context of both. A command has the
triggers of the preset or those of its binding, and a warning names each slot whose binding is not there. -/
theorem patch_unambiguous (patch : KeymapPatch) : ∃ base km warnings, preset (patch.preset.getD .vim) = some base ∧
    fromPatch patch = some (km, warnings) ∧
    (∀ r ∈ km.map, ∀ r' ∈ km.map, r.command ≠ r'.command → r.contexts.contains r'.contexts = true →
      triggersConflict r.trigger r'.trigger = false ∧ r.trigger ≠ r'.trigger) ∧
    (∀ r ∈ km.map, r.contexts = .of r.command.contexts) ∧
    (∀ cmd, km.triggersOf cmd = base.triggersOf cmd ∨
      ∃ value, (cmd.name, value) ∈ patch.bindings ∧ parseBindValue value = .ok (km.triggersOf cmd)) ∧
    ∀ slot value, (slot, value) ∈ patch.bindings →
      (∃ cmd, commandByName slot = some cmd ∧ parseBindValue value = .ok (km.triggersOf cmd)) ∨
        ∃ w ∈ warnings, w.Names slot := by
  obtain ⟨km, warnings, hfrom, hsettled, htriggers, hbindings⟩ := fromPatch_settles patch
  refine ⟨_, km, warnings, preset_eq _, hfrom, fun r hr r' hr' hne hshare => ?_, hsettled.offered, htriggers, hbindings⟩
  have hclash := hsettled.apart r hr r' hr' hne
  have hdiffer : triggersConflict r.trigger r'.trigger = false :=
    Bool.eq_false_iff.2 fun hconflict => hclash ⟨hshare, hconflict⟩
  refine ⟨hdiffer, fun he => ?_⟩
  rw [he, triggersConflict_refl] at hdiffer
  cases hdiffer

/-- A command that gets its default back may take it from one that was rebound to it. -/
example : ((fromPatch { bindings := [("pin-toggle".toList, .one ['o']), ("sort-cycle".toList, .one ['e'])]
                        sorted := by decide }).map fun p => (p.1.triggersOf .pinToggle, p.1.triggersOf .sortCycle)) =
    some ([ch 'p'], [ch 'o']) := by decide +kernel

end Keymap

end Falach.Tui
