import Falach.Core.Crud
import Falach.Lib.Text
import Falach.Tui.Command
/-!
# Widgets

The parts of the screens that keep something: input fields, tabs, the tree, the recently used entries and the places
the user came from.
-/

namespace Falach.Tui

open Keepass

/-! ## Keys -/

inductive KeyCode where
  | char (c : Char)
  | enter
  | esc
  | tab
  | backTab
  | backspace
  | up
  | down
  | left
  | right
  | other (n : Nat)
deriving DecidableEq

/-- A `KeyEvent`; `press` tells a press from a repetition or a release. -/
structure Key where
  code : KeyCode
  control : Bool := false
  alt : Bool := false
  shift : Bool := false
  press : Bool := true
deriving DecidableEq

/-- `digit_value`. -/
def digitValue (key : Key) : Option Nat :=
  match key.code with
  | .char c => if '0' ≤ c ∧ c ≤ '9' then some (c.toNat - '0'.toNat) else none
  | _ => none

/-- A `tui_input::Input`. -/
structure Input where
  value : Text := []
  cursor : Nat := 0
deriving DecidableEq

inductive InputAction where
  | «continue»
  | submit
  | cancel
deriving DecidableEq

/-- `PasswordInput`; the cursor counts characters. -/
structure PasswordInput where
  buffer : Text := []
  cursor : Nat := 0
deriving DecidableEq

def PasswordInput.onKey (input : PasswordInput) (key : Key) : InputAction × PasswordInput :=
  match key.code with
  | .enter => (.submit, input)
  | .esc => (.cancel, input)
  | .backspace =>
    if input.cursor = 0 then (.«continue», input)
    else (.«continue», ⟨input.buffer.eraseIdx (input.cursor - 1), input.cursor - 1⟩)
  | .left => (.«continue», { input with cursor := input.cursor - 1 })
  | .right => (.«continue», { input with cursor := min (input.cursor + 1) input.buffer.length })
  | .char c =>
    if key.control then (.«continue», input)
    else (.«continue», ⟨input.buffer.insertIdx input.cursor c, input.cursor + 1⟩)
  | _ => (.«continue», input)

/-! ## Tabs -/

inductive Tab where
  | secrets
  | pinned (uuid : Uuid)
  | settings
deriving DecidableEq

/-- The first `cap` different ones of a list, after those already taken. -/
def takeDistinct (cap : Nat) (taken : List Uuid) : List Uuid → List Uuid
  | [] => taken
  | uuid :: rest =>
    if uuid ∈ taken then takeDistinct cap taken rest
    else if taken.length + 1 = cap then taken ++ [uuid] else takeDistinct cap (taken ++ [uuid]) rest

def maxPins : Nat := 5

/-- `TabBar`: Secrets, the pinned entries and Settings. The active index is in range. -/
structure TabBar where
  active : Nat := 0
  pinned : List Uuid := []
  activation : List Uuid := []
  inRange : active < pinned.length + 2 := by omega

namespace TabBar

def count (t : TabBar) : Nat := t.pinned.length + 2

/-- `TabBar::with_pins`. -/
def withPins (pinned : List Uuid) : TabBar where
  pinned := takeDistinct maxPins [] pinned
  activation := (takeDistinct maxPins [] pinned).reverse

def resolve (t : TabBar) (index : Nat) : Option Tab :=
  if index = 0 then some .secrets
  else if index ≤ t.pinned.length then (t.pinned[index - 1]?).map .pinned
  else if index = t.pinned.length + 1 then some .settings
  else none

theorem resolve_isSome {t : TabBar} {index : Nat} (h : index < t.count) : (t.resolve index).isSome := by
  unfold count at h
  unfold resolve
  split
  · rfl
  · split
    · rw [List.getElem?_eq_getElem (by omega)]
      rfl
    · rw [if_pos (by omega)]
      rfl

/-- `TabBar::active_tab`: its `expect` never fails. -/
def activeTab (t : TabBar) : Tab := (t.resolve t.active).get (resolve_isSome t.inRange)

def recordActivation (t : TabBar) : TabBar :=
  match t.activeTab with
  | .pinned uuid => { t with activation := uuid :: t.activation.filter (· ≠ uuid) }
  | _ => t

def next (t : TabBar) : TabBar :=
  recordActivation { t with active := (t.active + 1) % t.count, inRange := Nat.mod_lt _ (Nat.succ_pos _) }

def prev (t : TabBar) : TabBar :=
  recordActivation { t with active := (t.active + t.count - 1) % t.count, inRange := Nat.mod_lt _ (Nat.succ_pos _) }

def jumpTo (t : TabBar) (n : Nat) : TabBar :=
  if h : 1 ≤ n ∧ n ≤ t.count then
    recordActivation { t with active := n - 1, inRange := by have := h.2; unfold count at this; omega }
  else t

def isPinned (t : TabBar) (uuid : Uuid) : Bool := t.pinned.contains uuid

/-- The tabs with these pins, the active index clamped. -/
def repinned (t : TabBar) (pinned activation : List Uuid) : TabBar where
  active := min t.active (pinned.length + 1)
  pinned := pinned
  activation := activation

/-- `TabBar::toggle_pin`: beyond `MAX_PINS` the least recently active pin gives way. -/
def togglePin (t : TabBar) (uuid : Uuid) : TabBar :=
  if uuid ∈ t.pinned then t.repinned (t.pinned.filter (· ≠ uuid)) (t.activation.filter (· ≠ uuid))
  else
    match if maxPins ≤ t.pinned.length then t.activation.getLast? else none with
    | some victim => t.repinned (t.pinned.filter (· ≠ victim) ++ [uuid]) (uuid :: t.activation.filter (· ≠ victim))
    | none => t.repinned (t.pinned ++ [uuid]) (uuid :: t.activation)

end TabBar

/-! ## Entries used and places visited -/

/-- `Recents`, the most recent first. -/
structure Recents where
  order : List Uuid := []
deriving DecidableEq

namespace Recents

def cap : Nat := 50

def fromPersisted (list : List Uuid) : Recents := ⟨takeDistinct cap [] list⟩
def bump (r : Recents) (uuid : Uuid) : Recents := ⟨(uuid :: r.order.filter (· ≠ uuid)).take cap⟩
def remove (r : Recents) (uuid : Uuid) : Recents := ⟨r.order.filter (· ≠ uuid)⟩

end Recents

/-- `JumpHistory`, the most recent last. -/
structure JumpHistory where
  back : List Uuid := []
  forward : List Uuid := []
deriving DecidableEq

namespace JumpHistory

def cap : Nat := 100

def capped (trail : List Uuid) : List Uuid := trail.drop (trail.length - cap)

def push (h : JumpHistory) (id : Uuid) : JumpHistory :=
  if h.back.getLast? = some id then h else ⟨capped (h.back ++ [id]), []⟩

/-- `JumpHistory::back`. -/
def goBack (h : JumpHistory) (current : Uuid) : Option Uuid × JumpHistory :=
  let h := if h.back.getLast? ≠ some current then h.push current else h
  if h.back.length < 2 then (none, h)
  else (h.back.dropLast.getLast?, ⟨h.back.dropLast, h.forward ++ h.back.getLast?.toList⟩)

/-- `JumpHistory::forward`. -/
def goForward (h : JumpHistory) (current : Uuid) : Option Uuid × JumpHistory :=
  match h.forward.getLast? with
  | none => (none, h)
  | some next =>
    let back := if h.back.getLast? ≠ some current then h.back ++ [current] else h.back
    (some next, ⟨capped (back ++ [next]), h.forward.dropLast⟩)

end JumpHistory

/-! ## The tree -/

inductive SortOrder where
  | recentlyUsed
  | title
  | lastModified
  | group
deriving DecidableEq

def SortOrder.next : SortOrder → SortOrder
  | .recentlyUsed => .title
  | .title => .lastModified
  | .lastModified => .group
  | .group => .recentlyUsed

inductive RowKind where
  | group (expanded hasChildren : Bool)
  | entry
deriving DecidableEq

structure TreeRow where
  uuid : Uuid
  depth : Nat
  kind : RowKind
deriving DecidableEq

def TreeRow.isGroup (r : TreeRow) : Bool :=
  match r.kind with
  | .group _ _ => true
  | .entry => false

structure TreeState where
  expanded : Finset Uuid := ∅
  selected : Option Uuid := none
  sort : SortOrder := .recentlyUsed

/-! The moves of `TreeState` say whether the selection has changed. -/

namespace TreeState

def cycleSort (t : TreeState) : TreeState := { t with sort := t.sort.next }
def select (t : TreeState) (uuid : Uuid) : TreeState := { t with selected := some uuid }
def expand (t : TreeState) (group : Uuid) : TreeState := { t with expanded := insert group t.expanded }
def selectFirst (t : TreeState) (rows : List TreeRow) : TreeState := { t with selected := rows.head?.map (·.uuid) }

def selectedIndex (t : TreeState) (rows : List TreeRow) : Option Nat :=
  t.selected.bind fun uuid => rows.findIdx? fun r => r.uuid = uuid

/-- The selected row, and where it is. -/
def selectedRow (t : TreeState) (rows : List TreeRow) : Option (Nat × TreeRow) :=
  (t.selectedIndex rows).bind fun i => (rows[i]?).map fun r => (i, r)

def selectedIsEntry (t : TreeState) (rows : List TreeRow) : Bool := (t.selectedRow rows).any fun r => !r.2.isGroup

/-- Select this row, or nothing. -/
def setSelected (t : TreeState) (row : Option TreeRow) : Bool × TreeState :=
  (t.selected ≠ row.map (·.uuid), { t with selected := row.map (·.uuid) })

def moveNext (t : TreeState) (rows : List TreeRow) : Bool × TreeState :=
  t.setSelected (rows[min ((t.selectedIndex rows).getD 0 + 1) (rows.length - 1)]?)

def movePrev (t : TreeState) (rows : List TreeRow) : Bool × TreeState :=
  t.setSelected (rows[(t.selectedIndex rows).getD 0 - 1]?)

def collapseOrParent (t : TreeState) (rows : List TreeRow) : Bool × TreeState :=
  match t.selectedRow rows with
  | none => (false, t)
  | some (i, r) =>
    match r.kind with
    | .group true _ => (false, { t with expanded := t.expanded.erase r.uuid })
    | _ =>
      if r.depth = 0 then (false, t)
      else
        match (rows.take i).reverse.find? fun above => above.depth < r.depth with
        | some above => t.setSelected (some above)
        | none => (false, t)

def expandOrChild (t : TreeState) (rows : List TreeRow) : Bool × TreeState :=
  match t.selectedRow rows with
  | none => (false, t)
  | some (i, r) =>
    match r.kind, rows[i + 1]? with
    | .group false true, _ => (false, t.expand r.uuid)
    | .group true _, some below => if r.depth < below.depth then t.setSelected (some below) else (false, t)
    | _, _ => (false, t)

def toggleExpand (t : TreeState) (rows : List TreeRow) : TreeState :=
  match t.selectedRow rows with
  | none => t
  | some (_, r) =>
    if r.isGroup then
      if r.uuid ∈ t.expanded then { t with expanded := t.expanded.erase r.uuid } else t.expand r.uuid
    else t

end TreeState

end Falach.Tui
