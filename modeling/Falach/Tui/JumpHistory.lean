import Falach.Lib.Traces
import Falach.Tui.Widgets
/-!
# Walks through the jump history

The trail and what was stepped back from are one path, nearest to the cursor on both sides. Every call keeps two equal
nodes apart on it, but for a step forward to the node that is selected already.
-/

namespace Falach.Tui.JumpHistory

open Keepass

/-! ## Calls -/

inductive Call where
  | push (id : Uuid)
  | back (current : Uuid)
  | forward (current : Uuid)
  | clear

/-- The live selection of a walk. -/
def Call.current : Call → Option Uuid
  | .push _ | .clear => none
  | .back current | .forward current => some current

/-- What a call returns, and the history after it. -/
def call (h : JumpHistory) : Call → Option Uuid × JumpHistory
  | .push id => (none, h.push id)
  | .back current => h.goBack current
  | .forward current => h.goForward current
  | .clear => (none, {})

def step (h : JumpHistory) (c : Call) : Option JumpHistory := some (h.call c).2

/-- A call leaves a short trail without the same node twice in a row, does not return the live selection, and can be
undone if it is a step back. -/
structure Faithful (h : JumpHistory) (c : Call) : Prop where
  short : (h.call c).2.back.length ≤ cap
  noTwice : (h.call c).2.back.IsChain (· ≠ ·)
  moves : ∀ current, c.current = some current → (h.call c).1 ≠ some current
  undone : ∀ current dest, c = .back current → (h.call c).1 = some dest → ((h.call c).2.goForward dest).1 = some current

/-- The selection is already where a step forward leads. -/
def Ahead (h : JumpHistory) (c : Call) : Prop := ∃ current, c = .forward current ∧ h.forward.getLast? = some current

/-! ## The path -/

structure Inv (h : JumpHistory) : Prop where
  short : h.back.length ≤ cap
  path : (h.back ++ h.forward.reverse).IsChain (· ≠ ·)

variable {h : JumpHistory} {id current dest : Uuid} {nodes rest : List Uuid}

theorem capped_length (nodes : List Uuid) : (capped nodes).length ≤ cap := by
  rw [capped, List.length_drop]
  omega

theorem capped_path (hpath : (nodes ++ rest).IsChain (· ≠ ·)) : (capped nodes ++ rest).IsChain (· ≠ ·) := by
  have hdrop : capped nodes ++ rest = (nodes ++ rest).drop (nodes.length - cap) :=
    (List.drop_append_of_le_length (Nat.sub_le nodes.length cap)).symm
  exact hdrop ▸ hpath.drop _

/-- The last node is never evicted. -/
theorem capped_concat (nodes : List Uuid) (id : Uuid) : ∃ start, capped (nodes ++ [id]) = start ++ [id] := by
  refine ⟨nodes.drop ((nodes ++ [id]).length - cap), List.drop_append_of_le_length ?_⟩
  have hcap : 0 < cap := by decide
  rw [List.length_append, List.length_singleton]
  omega

theorem path_concat (hpath : nodes.IsChain (· ≠ ·)) (hlast : nodes.getLast? ≠ some id) :
    (nodes ++ [id]).IsChain (· ≠ ·) := by
  refine hpath.append (List.isChain_singleton id) fun x hx y hy hxy => hlast ?_
  cases hy
  exact hxy ▸ hx

theorem Inv.trail (hi : Inv h) : h.back.IsChain (· ≠ ·) := hi.path.left_of_append

theorem Inv.push (hi : Inv h) (id : Uuid) : Inv (h.push id) := by
  unfold JumpHistory.push
  split
  · exact hi
  · rename_i hlast
    exact ⟨capped_length _, capped_path (by simpa using path_concat hi.trail hlast)⟩

theorem push_back (h : JumpHistory) (id : Uuid) : ∃ start, (h.push id).back = start ++ [id] := by
  unfold JumpHistory.push
  split
  · rename_i hlast
    exact List.getLast?_eq_some_iff.1 hlast
  · exact capped_concat h.back id

/-! ## Steps back -/

/-- The history with its head at the live selection. -/
def anchored (h : JumpHistory) (current : Uuid) : JumpHistory :=
  if h.back.getLast? ≠ some current then h.push current else h

theorem Inv.anchored (hi : Inv h) (current : Uuid) : Inv (h.anchored current) := by
  unfold JumpHistory.anchored
  split
  · exact hi.push current
  · exact hi

theorem anchored_back (h : JumpHistory) (current : Uuid) : ∃ start, (h.anchored current).back = start ++ [current] := by
  unfold JumpHistory.anchored
  split
  · exact push_back h current
  · rename_i hlast
    exact List.getLast?_eq_some_iff.1 (not_not.1 hlast)

/-- A step back goes to the node before the selection, if there is one. -/
theorem goBack_eq (h : JumpHistory) (current : Uuid) :
    ((h.anchored current).back = [current] ∧ h.goBack current = (none, h.anchored current)) ∨
    ∃ start dest, (h.anchored current).back = start ++ [dest] ++ [current] ∧
      h.goBack current = (some dest, ⟨start ++ [dest], (h.anchored current).forward ++ [current]⟩) := by
  obtain ⟨start, hback⟩ := anchored_back h current
  have hgo : h.goBack current = if (h.anchored current).back.length < 2 then (none, h.anchored current)
      else ((h.anchored current).back.dropLast.getLast?,
        ⟨(h.anchored current).back.dropLast,
          (h.anchored current).forward ++ (h.anchored current).back.getLast?.toList⟩) := rfl
  rcases List.eq_nil_or_concat' start with rfl | ⟨start, dest, rfl⟩
  · refine .inl ⟨hback, ?_⟩
    rw [hgo, hback]
    rfl
  · refine .inr ⟨start, dest, hback, ?_⟩
    rw [hgo, hback, if_neg (by simp), List.dropLast_concat, List.getLast?_concat, List.getLast?_concat]
    rfl

theorem Inv.goBack (hi : Inv h) (current : Uuid) : Inv (h.goBack current).2 := by
  have hanchored := hi.anchored current
  rcases goBack_eq h current with ⟨-, hgo⟩ | ⟨start, dest, hback, hgo⟩
  · rw [hgo]
    exact hanchored
  · have hshort := hanchored.short
    have hpath := hanchored.path
    rw [hback] at hshort hpath
    rw [hgo]
    refine ⟨?_, ?_⟩
    · rw [List.length_append, List.length_singleton] at hshort
      exact Nat.le_of_succ_le hshort
    · simpa using hpath

/-! ## Steps forward -/

theorem Inv.goForward (hi : Inv h) (hahead : h.forward.getLast? ≠ some current) : Inv (h.goForward current).2 := by
  unfold JumpHistory.goForward
  split
  · exact hi
  · rename_i next hnext
    obtain ⟨later, hforward⟩ := List.getLast?_eq_some_iff.1 hnext
    have hpath := hi.path
    rw [hforward, List.reverse_concat] at hpath
    refine ⟨capped_length _, ?_⟩
    dsimp only
    rw [hforward, List.dropLast_concat]
    refine capped_path ?_
    rw [List.append_assoc, List.singleton_append]
    split
    · rename_i hlast
      have hne : current ≠ next := fun he => hahead (he ▸ hnext)
      have hlater : (next :: later.reverse).IsChain (· ≠ ·) := hpath.right_of_append
      refine (path_concat hi.trail hlast).append hlater fun x hx y hy => ?_
      rw [List.getLast?_concat] at hx
      cases hx
      cases hy
      exact hne
    · exact hpath

theorem inv_call {c : Call} (hi : Inv h) (hahead : ¬ Ahead h c) : Inv (h.call c).2 := by
  cases c with
  | push id => exact hi.push id
  | back current => exact hi.goBack current
  | forward current => exact hi.goForward fun hnext => hahead ⟨current, rfl, hnext⟩
  | clear => exact ⟨Nat.zero_le _, .nil⟩

/-! ## What calls return -/

theorem goForward_fst (h : JumpHistory) (current : Uuid) : (h.goForward current).1 = h.forward.getLast? := by
  unfold goForward
  split
  · rename_i hnone
    exact hnone.symm
  · rename_i hnext
    exact hnext.symm

/-- A step back does not stay where it is. -/
theorem goBack_ne (hi : Inv h) (current : Uuid) : (h.goBack current).1 ≠ some current := by
  rcases goBack_eq h current with ⟨-, hgo⟩ | ⟨start, dest, hback, hgo⟩
  · rw [hgo]
    exact Option.some_ne_none current |>.symm
  · have hpath := (hi.anchored current).trail
    rw [hback] at hpath
    rw [hgo]
    intro hsame
    obtain rfl := Option.some.inj hsame
    exact hpath.rel_getLast_head_of_append (by simp) (by simp) (by simp)

/-- The step forward after a step back leads to where it came from. -/
theorem goForward_goBack (hgo : (h.goBack current).1 = some dest) :
    ((h.goBack current).2.goForward dest).1 = some current := by
  rcases goBack_eq h current with ⟨-, heq⟩ | ⟨start, prev, -, heq⟩
  · rw [heq] at hgo
    cases hgo
  · rw [goForward_fst, heq]
    exact List.getLast?_concat

theorem faithful_of_not_ahead {c : Call} (hi : Inv h) (hahead : ¬ Ahead h c) : Faithful h c := by
  have hcall := inv_call hi hahead
  refine ⟨hcall.short, hcall.trail, fun current hcurrent => ?_, fun current dest hback hdest => ?_⟩
  · cases c with
    | push id => cases hcurrent
    | clear => cases hcurrent
    | back current =>
      cases hcurrent
      exact goBack_ne hi current
    | forward current =>
      cases hcurrent
      have hnext := goForward_fst h current
      exact fun hsame => hahead ⟨current, rfl, hnext.symm.trans hsame⟩
  · cases hback
    exact goForward_goBack hdest

theorem Faithful.not_ahead {c : Call} (hf : Faithful h c) : ¬ Ahead h c := by
  rintro ⟨current, rfl, hnext⟩
  exact hf.moves current rfl ((goForward_fst h current).trans hnext)

/-! ## Walks -/

/-- All calls of a run are faithful just if none of them is a step forward to the node that is selected already. -/
theorem walk_faithful_iff (calls : List Call) (h : JumpHistory) :
    Trace step Faithful {} calls h ↔ Trace step (fun h c => ¬ Ahead h c) {} calls h := by
  constructor
  · intro run
    exact run.allow (I := fun _ => True) trivial (fun _ _ _ => trivial) fun _ hf => hf.not_ahead
  · intro run
    refine run.allow (I := Inv) ⟨Nat.zero_le _, .nil⟩ (fun hi hahead hstep => ?_) fun hi hahead =>
      faithful_of_not_ahead hi hahead
    cases hstep
    exact inv_call hi hahead

/-- The user steps back from 2 to 1, moves the selection to 2, and steps forward to 2, which is then on the trail
twice. -/
theorem forward_stays : ¬ ∀ calls h, Trace.Any step {} calls h → Trace step Faithful {} calls h := by
  intro hall
  have before : Trace.Any step {} [.push 1, .push 2, .back 2] ⟨[1], [2]⟩ :=
    ((Trace.nil.step trivial rfl).step trivial rfl).step trivial rfl
  have run : Trace step Faithful {} ([.push 1, .push 2, .back 2] ++ [.forward 2]) ⟨[1, 2, 2], []⟩ :=
    hall _ _ (before.step trivial rfl)
  obtain ⟨m, hm, hforward, -⟩ := run.last
  obtain rfl := hm.state_eq before
  exact hforward.moves 2 rfl rfl

end Falach.Tui.JumpHistory
