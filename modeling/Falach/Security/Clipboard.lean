import Falach.Lib.Programs
import Falach.Lib.Traces
import Falach.Security.AutoLock
/-!
# Clipboard auto-clear

Each copy arms a timer of its own. When its time is up it reads the clipboard and, if it finds the text of its copy,
clears it: two calls, between which others may write.
-/

namespace Falach

open Program

/-! ## The timer -/

/-- How the wait for a cancellation ends. -/
inductive Waited where
  | cancelled
  | timeout

/-- An `arboard::Error`. -/
inductive ArboardError where
  | unknown (description : String)

/-- What a timer asks for: `recv_timeout` on its cancel channel, and the two calls of its clipboard. -/
inductive TimerOp where
  | recvTimeout (ttl : Duration)
  | getText
  | setText (text : String)

@[reducible] def TimerAnswer : TimerOp → Type
  | .recvTimeout _ => Waited
  | .getText => Except ArboardError String
  | .setText _ => Except ArboardError Unit

abbrev TimerRun := Program TimerOp TimerAnswer Empty Unit

/-- The write of `run_autoclear`; whether it succeeds is not looked at. -/
def clear : TimerRun := do
  let _ ← request TimerAnswer (.setText "")
  return ()

/-- What `run_autoclear` does when the time is up. -/
def compareAndClear (comparison : String) : TimerRun := do
  match ← request TimerAnswer .getText with
  | .ok current => if current = comparison then clear else return ()
  | .error _ => return ()

/-- `run_autoclear`. -/
def runAutoclear (comparison : String) (ttl : Duration) : TimerRun := do
  match ← request TimerAnswer (.recvTimeout ttl) with
  | .cancelled => return ()
  | .timeout => compareAndClear comparison

/-! ## The clipboard and those who write to it -/

/-- A copy that has been armed: its text, when its time is up, whether its guard is alive, and what its timer has yet to
do. -/
structure ArmedCopy where
  text : String
  deadline : Instant
  guard : Bool
  timer : TimerRun

inductive Writer where
  | copy (i : Nat)
  | timer (i : Nat)
  | other
deriving DecidableEq

/-- The clipboard, who wrote to it last, and the copies in their order. -/
structure ClipboardState where
  now : Instant := 0
  content : String := ""
  writer : Option Writer := none
  copies : List ArmedCopy := []

inductive ClipboardEvent where
  | copy (text : String) (ttl : Duration)
  | dropGuard (i : Nat)
  | timer (i : Nat)
  | other (text : String)
  | pass (d : Duration)

/-- The event puts this text on the clipboard. -/
def ClipboardEvent.Writes (e : ClipboardEvent) (text : String) : Prop := (∃ ttl, e = .copy text ttl) ∨ e = .other text

namespace ClipboardState

variable (s : ClipboardState)

/-- `copy_with_autoclear_inner`. -/
def copyWithAutoclear (text : String) (ttl : Duration) : ClipboardState :=
  { s with
    content := text
    writer := some (.copy s.copies.length)
    copies := s.copies ++ [⟨text, s.now + ttl, true, runAutoclear text ttl⟩] }

/-- The guard of a copy is dropped, which sends on the cancel channel. -/
def dropGuard (i : Nat) : ClipboardState := { s with copies := s.copies.modify i fun c => { c with guard := false } }

/-- The timer of a copy goes on with this. -/
def goesOn (i : Nat) (p : TimerRun) : ClipboardState :=
  { s with copies := s.copies.modify i fun c => { c with timer := p } }

/-- The next step of a timer. It waits until its guard is dropped, which it sees first, or its time is up; and a call of
the clipboard succeeds. -/
def timerStep (i : Nat) (c : ArmedCopy) : Option ClipboardState :=
  match c.timer with
  | .ask (.recvTimeout _) k =>
    if c.guard = false then some (s.goesOn i (k .cancelled))
    else if c.deadline ≤ s.now then some (s.goesOn i (k .timeout))
    else none
  | .ask .getText k => some (s.goesOn i (k (.ok s.content)))
  | .ask (.setText text) k => some ({ s with content := text, writer := some (.timer i) }.goesOn i (k (.ok ())))
  | .done _ => none
  | .fail _ => none

def step (s : ClipboardState) : ClipboardEvent → Option ClipboardState
  | .copy text ttl => some (s.copyWithAutoclear text ttl)
  | .dropGuard i => if s.copies[i]?.any ArmedCopy.guard then some (s.dropGuard i) else none
  | .timer i => s.copies[i]?.bind fun c => s.timerStep i c
  | .other text => some { s with content := text, writer := some .other }
  | .pass d => some { s with now := s.now + d }

end ClipboardState

/-! ## Where a timer is -/

inductive Stage where
  | waiting
  | reading
  | clearing
  | ended
deriving DecidableEq

namespace Stage

/-- What a timer has yet to do. -/
def timer (text : String) (ttl : Duration) : Stage → TimerRun
  | .waiting => runAutoclear text ttl
  | .reading => compareAndClear text
  | .clearing => clear
  | .ended => .done ()

end Stage

namespace ArmedCopy

/-- The timer of the copy is at this stage. -/
def At (c : ArmedCopy) (stage : Stage) : Prop := ∃ ttl, c.timer = stage.timer c.text ttl

/-- It is going to write to the clipboard. -/
def Clears (c : ArmedCopy) : Prop := ∃ text k, c.timer = .ask (.setText text) k

/-- It is going to read it. -/
def Reads (c : ArmedCopy) : Prop := ∃ k, c.timer = .ask .getText k

/-- It has run. -/
def Ended (c : ArmedCopy) : Prop := ∃ r, c.timer = .done r

variable {c : ArmedCopy} {stage : Stage}

theorem At.clears_iff (h : c.At stage) : c.Clears ↔ stage = .clearing := by
  obtain ⟨ttl, h⟩ := h
  unfold Clears
  rw [h]
  cases stage with
  | waiting => exact iff_of_false (fun ⟨_, _, h⟩ => by cases h) nofun
  | reading => exact iff_of_false (fun ⟨_, _, h⟩ => by cases h) nofun
  | clearing => exact iff_of_true ⟨"", _, rfl⟩ rfl
  | ended => exact iff_of_false (fun ⟨_, _, h⟩ => by cases h) nofun

theorem At.reads_iff (h : c.At stage) : c.Reads ↔ stage = .reading := by
  obtain ⟨ttl, h⟩ := h
  unfold Reads
  rw [h]
  cases stage with
  | waiting => exact iff_of_false (fun ⟨_, h⟩ => by cases h) nofun
  | reading => exact iff_of_true ⟨_, rfl⟩ rfl
  | clearing => exact iff_of_false (fun ⟨_, h⟩ => by cases h) nofun
  | ended => exact iff_of_false (fun ⟨_, h⟩ => by cases h) nofun

theorem At.ended_iff (h : c.At stage) : c.Ended ↔ stage = .ended := by
  obtain ⟨ttl, h⟩ := h
  unfold Ended
  rw [h]
  cases stage with
  | waiting => exact iff_of_false (fun ⟨_, h⟩ => by cases h) nofun
  | reading => exact iff_of_false (fun ⟨_, h⟩ => by cases h) nofun
  | clearing => exact iff_of_false (fun ⟨_, h⟩ => by cases h) nofun
  | ended => exact iff_of_true ⟨(), rfl⟩ rfl

end ArmedCopy

namespace ClipboardState

variable {s s' : ClipboardState} {i j : Nat} {c : ArmedCopy} {stage : Stage}

/-- A step of the timer of a copy: where it was, where it is then, and what it has done to the clipboard. -/
inductive TimerMoves (s : ClipboardState) (i : Nat) (c : ArmedCopy) : Stage → Stage → ClipboardState → Prop where
  | cancelled : c.guard = false → TimerMoves s i c .waiting .ended (s.goesOn i (.done ()))
  | timeout : c.guard = true → c.deadline ≤ s.now →
      TimerMoves s i c .waiting .reading (s.goesOn i (compareAndClear c.text))
  | found : s.content = c.text → TimerMoves s i c .reading .clearing (s.goesOn i clear)
  | missed : s.content ≠ c.text → TimerMoves s i c .reading .ended (s.goesOn i (.done ()))
  | cleared : TimerMoves s i c .clearing .ended
      ({ s with content := "", writer := some (.timer i) }.goesOn i (.done ()))

theorem timerStep_moves (hat : c.At stage) (h : s.timerStep i c = some s') :
    ∃ stage', TimerMoves s i c stage stage' s' := by
  obtain ⟨ttl, htimer⟩ := hat
  unfold timerStep at h
  rw [htimer] at h
  cases stage with
  | waiting =>
    change (if c.guard = false then some (s.goesOn i (.done ()))
      else if c.deadline ≤ s.now then some (s.goesOn i (compareAndClear c.text)) else none) = some s' at h
    by_cases hguard : c.guard = false
    · rw [if_pos hguard] at h
      cases h
      exact ⟨_, .cancelled hguard⟩
    · rw [if_neg hguard] at h
      by_cases hdue : c.deadline ≤ s.now
      · rw [if_pos hdue] at h
        cases h
        exact ⟨_, .timeout (by simpa using hguard) hdue⟩
      · rw [if_neg hdue] at h
        cases h
  | reading =>
    change some (s.goesOn i (if s.content = c.text then clear else .done ())) = some s' at h
    cases h
    by_cases hfound : s.content = c.text
    · rw [if_pos hfound]
      exact ⟨_, .found hfound⟩
    · rw [if_neg hfound]
      exact ⟨_, .missed hfound⟩
  | clearing =>
    cases h
    exact ⟨_, .cleared⟩
  | ended => cases h

/-! ## What a step does -/

/-- A step of the system: an event that nothing of the copies depends on, or one of a copy. -/
inductive Moves (s : ClipboardState) : ClipboardEvent → ClipboardState → Prop where
  | copy (text : String) (ttl : Duration) : Moves s (.copy text ttl) (s.copyWithAutoclear text ttl)
  | dropGuard {i : Nat} : Moves s (.dropGuard i) (s.dropGuard i)
  | timer {i : Nat} {c : ArmedCopy} {stage stage' : Stage} {s' : ClipboardState} :
      s.copies[i]? = some c → c.At stage → TimerMoves s i c stage stage' s' → Moves s (.timer i) s'
  | other (text : String) : Moves s (.other text) { s with content := text, writer := some .other }
  | pass (d : Duration) : Moves s (.pass d) { s with now := s.now + d }

/-- Every timer is at a stage of its program. -/
def Staged (s : ClipboardState) : Prop := ∀ c ∈ s.copies, ∃ stage, c.At stage

theorem step_moves {e : ClipboardEvent} (hs : s.Staged) (h : s.step e = some s') : Moves s e s' := by
  cases e with
  | copy text ttl =>
    cases h
    exact .copy text ttl
  | dropGuard i =>
    change (if s.copies[i]?.any ArmedCopy.guard then some (s.dropGuard i) else none) = some s' at h
    split at h
    · cases h
      exact .dropGuard
    · cases h
  | timer i =>
    obtain ⟨c, hc, h⟩ := Option.bind_eq_some_iff.1 h
    obtain ⟨stage, hat⟩ := hs c (List.mem_of_getElem? hc)
    obtain ⟨stage', moves⟩ := timerStep_moves hat h
    exact .timer hc hat moves
  | other text =>
    cases h
    exact .other text
  | pass d =>
    cases h
    exact .pass d

/-- What becomes of a copy: its guard does not come back to life. -/
structure Later (c c' : ArmedCopy) : Prop where
  text : c'.text = c.text
  deadline : c'.deadline = c.deadline
  guard : c'.guard = true → c.guard = true

theorem modify_later {l : List ArmedCopy} {f : ArmedCopy → ArmedCopy} (hf : ∀ c, Later c (f c)) {c' : ArmedCopy}
    (h : (l.modify i f)[j]? = some c') : ∃ c, l[j]? = some c ∧ Later c c' ∧ (i ≠ j → c' = c) ∧ (i = j → c' = f c) := by
  rw [List.getElem?_modify] at h
  obtain ⟨c, hc, rfl⟩ := Option.map_eq_some_iff.1 h
  refine ⟨c, hc, ?_, fun hne => if_neg hne, fun heq => if_pos heq⟩
  split
  · exact hf c
  · exact ⟨rfl, rfl, id⟩

/-- The copies after a step of a timer. -/
theorem TimerMoves.copies {stage' : Stage} (h : TimerMoves s i c stage stage' s') :
    ∃ p, (∃ ttl, p = stage'.timer c.text ttl) ∧ s'.copies = s.copies.modify i fun x => { x with timer := p } := by
  cases h
  all_goals exact ⟨_, ⟨0, rfl⟩, rfl⟩

theorem dropped_later (c : ArmedCopy) : Later c { c with guard := false } :=
  ⟨rfl, rfl, fun h => absurd h Bool.false_ne_true⟩

theorem goesOn_later (p : TimerRun) (c : ArmedCopy) : Later c { c with timer := p } := ⟨rfl, rfl, id⟩

/-- A copy after a step: one that is new, or one that was there, whose timer has moved if the step was its own. -/
theorem Moves.copy_of {e : ClipboardEvent} (h : Moves s e s') {c' : ArmedCopy} (hc' : s'.copies[j]? = some c') :
    (∃ text ttl, e = .copy text ttl ∧ j = s.copies.length ∧ c' = ⟨text, s.now + ttl, true, runAutoclear text ttl⟩) ∨
    ∃ c, s.copies[j]? = some c ∧ Later c c' ∧ (c'.timer = c.timer ∨
      e = .timer j ∧ ∃ stage stage', c.At stage ∧ TimerMoves s j c stage stage' s' ∧ c'.At stage') := by
  cases h with
  | copy text ttl =>
    change (s.copies ++ [_])[j]? = _ at hc'
    rw [List.getElem?_append] at hc'
    split at hc'
    · exact .inr ⟨c', hc', ⟨rfl, rfl, id⟩, .inl rfl⟩
    · rename_i hlen
      rw [List.getElem?_singleton, Option.ite_none_right_eq_some, Option.some.injEq] at hc'
      exact .inl ⟨text, ttl, rfl, by omega, hc'.2.symm⟩
  | @dropGuard i =>
    obtain ⟨c, hc, hlater, hne, heq⟩ := modify_later dropped_later hc'
    refine .inr ⟨c, hc, hlater, .inl ?_⟩
    by_cases hij : i = j
    · rw [heq hij]
    · rw [hne hij]
  | @timer i c stage stage' _ hc hat moves =>
    obtain ⟨p, hp, hcopies⟩ := moves.copies
    rw [hcopies] at hc'
    obtain ⟨old, hold, hlater, hne, heq⟩ := modify_later (goesOn_later p) hc'
    refine .inr ⟨old, hold, hlater, ?_⟩
    by_cases hij : i = j
    · subst hij
      obtain rfl := Option.some.inj (hc.symm.trans hold)
      obtain ⟨ttl, rfl⟩ := hp
      refine .inr ⟨rfl, stage, stage', hat, moves, ttl, ?_⟩
      rw [heq rfl]
    · rw [hne hij]
      exact .inl rfl
  | other text => exact .inr ⟨c', hc', ⟨rfl, rfl, id⟩, .inl rfl⟩
  | pass d => exact .inr ⟨c', hc', ⟨rfl, rfl, id⟩, .inl rfl⟩

theorem Later.at_of {c' : ArmedCopy} (h : Later c c') (htimer : c'.timer = c.timer) (hat : c.At stage) :
    c'.At stage := by
  obtain ⟨ttl, hat⟩ := hat
  exact ⟨ttl, by rw [htimer, hat, h.text]⟩

theorem Staged.moves {e : ClipboardEvent} (hs : s.Staged) (h : Moves s e s') : s'.Staged := by
  intro c' hc'
  obtain ⟨j, hj⟩ := List.getElem?_of_mem hc'
  rcases h.copy_of hj with ⟨text, ttl, -, -, rfl⟩ | ⟨c, hc, hlater, htimer | ⟨-, stage, stage', -, -, hat⟩⟩
  · exact ⟨.waiting, ttl, rfl⟩
  · obtain ⟨stage, hat⟩ := hs c (List.mem_of_getElem? hc)
    exact ⟨stage, hlater.at_of htimer hat⟩
  · exact ⟨stage', hat⟩

theorem Staged.of_nil (h : s.copies = []) : s.Staged := by
  intro c hc
  rw [h] at hc
  cases hc

/-! ## Whose text a timer clears -/

/-- What is on the clipboard is not what another program wrote after copy `i`, nor a later copy whose guard is alive and
whose time is not up. -/
def Owned (s : ClipboardState) (i : Nat) : Prop := s.writer ≠ some .other ∧
  ∀ (j : Nat) (c : ArmedCopy), s.writer = some (.copy j) → i < j → s.copies[j]? = some c → c.guard = true →
    c.deadline ≤ s.now

/-- A timer writes only over what is its own. -/
def Proper (s : ClipboardState) (e : ClipboardEvent) : Prop :=
  ∀ (i : Nat) (c : ArmedCopy), e = .timer i → s.copies[i]? = some c → c.Clears → s.Owned i

/-- No timer is between its read and its write. -/
def Quiet (s : ClipboardState) : Prop := ∀ c ∈ s.copies, ¬ c.Clears

/-- Nobody writes between the read and the write of a timer, and a timer that finds the text of its copy does not find
it written by somebody else. -/
def Safe (s : ClipboardState) : ClipboardEvent → Prop
  | .copy _ ttl => ttl = 0 ∨ s.Quiet
  | .other _ => s.Quiet
  | .timer i => ∀ c, s.copies[i]? = some c → c.Reads → s.content = c.text → s.Owned i
  | .dropGuard _ | .pass _ => True

/-- Time and dropped guards take nothing from a timer. -/
theorem Owned.later (h : s.Owned i) (hwriter : s'.writer = s.writer ∨ ∃ k, s'.writer = some (.timer k))
    (hcopies : ∀ (j : Nat) (c' : ArmedCopy), s'.copies[j]? = some c' → ∃ c, s.copies[j]? = some c ∧ Later c c')
    (hnow : s.now ≤ s'.now) : s'.Owned i := by
  rcases hwriter with hwriter | ⟨k, hwriter⟩
  · refine ⟨by rw [hwriter]; exact h.1, fun j c' hj hlt hc' hguard => ?_⟩
    obtain ⟨c, hc, hlater⟩ := hcopies j c' hc'
    rw [hlater.deadline]
    exact (h.2 j c (hwriter ▸ hj) hlt hc (hlater.guard hguard)).trans hnow
  · refine ⟨by rw [hwriter]; exact nofun, fun j c' hj => ?_⟩
    rw [hwriter] at hj
    cases hj

/-- Every timer is at a stage, and one that is about to write has found what is its own. -/
structure Safely (s : ClipboardState) : Prop where
  staged : s.Staged
  owned : ∀ (i : Nat) (c : ArmedCopy), s.copies[i]? = some c → c.Clears → s.Owned i

theorem TimerMoves.writer {stage' : Stage} (h : TimerMoves s i c stage stage' s') :
    (s'.writer = s.writer ∨ ∃ k, s'.writer = some (.timer k)) ∧ s'.now = s.now := by
  cases h with
  | cleared => exact ⟨.inr ⟨i, rfl⟩, rfl⟩
  | _ => exact ⟨.inl rfl, rfl⟩

theorem Safely.moves {e : ClipboardEvent} (h : s.Safely) (hsafe : s.Safe e) (hm : Moves s e s') : s'.Safely := by
  refine ⟨h.staged.moves hm, fun i c' hc' hclears => ?_⟩
  -- a step that writes nothing of its own leaves the clipboard to those who had it
  have later : (∀ text ttl, e ≠ .copy text ttl) → s.Owned i →
      (s'.writer = s.writer ∨ ∃ k, s'.writer = some (.timer k)) → s.now ≤ s'.now → s'.Owned i := by
    intro hno howned hwriter hnow
    refine howned.later hwriter (fun j c hc => ?_) hnow
    rcases hm.copy_of hc with ⟨text, ttl, he, -⟩ | ⟨old, hold, hlater, -⟩
    · exact absurd he (hno text ttl)
    · exact ⟨old, hold, hlater⟩
  rcases hm.copy_of hc' with ⟨text, ttl, -, -, rfl⟩ | ⟨c, hc, hlater, htimer | ⟨rfl, stage, stage', hat, moves, hat'⟩⟩
  · have hwaiting : (⟨text, s.now + ttl, true, runAutoclear text ttl⟩ : ArmedCopy).At .waiting := ⟨ttl, rfl⟩
    exact nomatch hwaiting.clears_iff.1 hclears
  · have hold : c.Clears := by
      unfold ArmedCopy.Clears at hclears ⊢
      rw [← htimer]
      exact hclears
    have howned := h.owned i c hc hold
    cases hm with
    | copy text ttl =>
      obtain rfl := hsafe.resolve_right fun hquiet => hquiet c (List.mem_of_getElem? hc) hold
      refine ⟨fun h => ?_, fun j new hj _ hnew _ => ?_⟩
      · cases h
      · cases hj
        have hlast : (s.copies ++ [⟨text, s.now + 0, true, runAutoclear text 0⟩])[s.copies.length]? = some new := hnew
        rw [List.getElem?_concat_length, Option.some.injEq] at hlast
        subst hlast
        exact le_rfl
    | dropGuard => exact later nofun howned (.inl rfl) le_rfl
    | timer hc₂ hat moves =>
      obtain ⟨hwriter, hnow⟩ := moves.writer
      exact later nofun howned hwriter hnow.ge
    | other text => exact absurd hold (hsafe c (List.mem_of_getElem? hc))
    | pass d => exact later nofun howned (.inl rfl) (Nat.le_add_right _ _)
  · obtain rfl := hat'.clears_iff.1 hclears
    obtain ⟨hwriter, hnow⟩ := moves.writer
    refine later nofun ?_ hwriter hnow.ge
    cases moves with
    | found hfound => exact hsafe c hc (hat.reads_iff.2 rfl) hfound

/-- A timer that is about to clear what is not its own can go on, and does. -/
theorem improper (hc : s.copies[i]? = some c) (hat : c.At .clearing) (hnot : ¬ s.Owned i) :
    (s.step (.timer i)).isSome ∧ ¬ s.Proper (.timer i) := by
  obtain ⟨ttl, htimer⟩ := hat
  refine ⟨?_, fun h => hnot (h i c rfl hc ?_)⟩
  · change (s.copies[i]?.bind fun c => s.timerStep i c).isSome = true
    rw [hc, Option.bind_some]
    unfold timerStep
    rw [htimer]
    rfl
  · exact (ArmedCopy.At.clears_iff ⟨ttl, htimer⟩).2 rfl

theorem Owned.of_goesOn {k : Nat} {p : TimerRun} (h : (s.goesOn k p).Owned i) : s.Owned i := by
  refine ⟨h.1, fun j c hj hlt hc hguard => ?_⟩
  have hnew : (s.goesOn k p).copies[j]? = some (if k = j then { c with timer := p } else c) := by
    change (s.copies.modify k fun c => { c with timer := p })[j]? = _
    rw [List.getElem?_modify, hc]
    rfl
  have hdue := h.2 j _ hj hlt hnew
  split at hdue
  · exact hdue hguard
  · exact hdue hguard

/-- After a step that is not safe a timer may write over what is not its own. -/
theorem improper_of_not_safe {e : ClipboardEvent} (hs : s.Staged) (hstep : s.step e = some s') (hnot : ¬ s.Safe e) :
    ∃ i, (s'.step (.timer i)).isSome ∧ ¬ s'.Proper (.timer i) := by
  have clearing : ¬ s.Quiet → ∃ i c, s.copies[i]? = some c ∧ i < s.copies.length ∧ c.At .clearing := by
    intro hnoise
    unfold Quiet at hnoise
    push Not at hnoise
    obtain ⟨c, hmem, hclears⟩ := hnoise
    obtain ⟨stage, hat⟩ := hs c hmem
    obtain rfl := hat.clears_iff.1 hclears
    obtain ⟨i, hi⟩ := List.getElem?_of_mem hmem
    exact ⟨i, c, hi, (List.getElem?_eq_some_iff.1 hi).1, hat⟩
  cases step_moves hs hstep with
  | copy text ttl =>
    obtain ⟨httl, hnoise⟩ := not_or.1 hnot
    obtain ⟨i, c, hc, hi, hat⟩ := clearing hnoise
    refine ⟨i, improper ((List.getElem?_append_left hi).trans hc) hat fun howned => httl ?_⟩
    have hdue : s.now + ttl ≤ s.now := howned.2 _ _ rfl hi (List.getElem?_concat_length ..) rfl
    exact Nat.le_zero.1 (Nat.le_of_add_le_add_left hdue)
  | dropGuard => exact absurd trivial hnot
  | @timer i c stage stage' _ hc hat moves =>
    unfold Safe at hnot
    push Not at hnot
    obtain ⟨c', hc', hreads, hfound, hnot⟩ := hnot
    obtain rfl := Option.some.inj (hc.symm.trans hc')
    obtain rfl := hat.reads_iff.1 hreads
    cases moves with
    | found _ =>
      have hnew : (s.goesOn i clear).copies[i]? = some { c with timer := clear } := by
        change (s.copies.modify i fun c => { c with timer := clear })[i]? = _
        rw [List.getElem?_modify_eq, hc]
        rfl
      exact ⟨i, improper hnew ⟨0, rfl⟩ fun howned => hnot howned.of_goesOn⟩
    | missed hmissed => exact absurd hfound hmissed
  | other text =>
    obtain ⟨i, c, hc, -, hat⟩ := clearing hnot
    exact ⟨i, improper hc hat fun howned => howned.1 rfl⟩
  | pass d => exact absurd trivial hnot

/-! ## The text of a copy -/

theorem Moves.content {e : ClipboardEvent} {text : String} (h : Moves s e s') (hno : ¬ e.Writes text) :
    s'.content = s.content ∨ s'.content ≠ text ∨ s'.content = "" := by
  cases h with
  | copy other ttl =>
    refine .inr (.inl fun h => hno (.inl ⟨ttl, ?_⟩))
    exact congrArg (ClipboardEvent.copy · ttl) h
  | dropGuard => exact .inl rfl
  | timer _ _ moves =>
    cases moves with
    | cleared => exact .inr (.inr rfl)
    | _ => exact .inl rfl
  | other other => exact .inr (.inl fun h => hno (.inr (congrArg ClipboardEvent.other h)))
  | pass d => exact .inl rfl

/-- If the guard of copy `n` is alive and its timer has run, its text is off the clipboard. -/
def Off (s : ClipboardState) (n : Nat) (text : String) : Prop :=
  ∃ c, s.copies[n]? = some c ∧ c.text = text ∧ (c.guard = true → c.Ended → s.content ≠ text ∨ s.content = "")

theorem Moves.length_le {e : ClipboardEvent} (h : Moves s e s') : s.copies.length ≤ s'.copies.length := by
  cases h with
  | copy text ttl => exact (Nat.le_add_right _ _).trans (List.length_append ..).ge
  | dropGuard => exact (List.length_modify ..).ge
  | timer _ _ moves =>
    obtain ⟨p, -, hcopies⟩ := moves.copies
    rw [hcopies]
    exact (List.length_modify ..).ge
  | other text => exact le_rfl
  | pass d => exact le_rfl

theorem Off.moves {e : ClipboardEvent} {n : Nat} {text : String} (h : s.Off n text) (hm : Moves s e s')
    (hno : ¬ e.Writes text) : s'.Off n text := by
  obtain ⟨c, hc, rfl, hoff⟩ := h
  have hn : n < s.copies.length := (List.getElem?_eq_some_iff.1 hc).1
  have hc' := List.getElem?_eq_getElem (hn.trans_le hm.length_le)
  rcases hm.copy_of hc' with ⟨_, _, -, heq, -⟩ | ⟨old, hold, hlater, hmoved⟩
  · exact absurd heq hn.ne
  obtain rfl := Option.some.inj (hc.symm.trans hold)
  refine ⟨_, hc', hlater.text, fun hguard hended => ?_⟩
  rcases hmoved with htimer | ⟨rfl, stage, stage', hat, moves, hat'⟩
  · have hwas := hoff (hlater.guard hguard) (by obtain ⟨r, hr⟩ := hended; exact ⟨r, htimer ▸ hr⟩)
    rcases hm.content hno with hsame | hother
    · rw [hsame]
      exact hwas
    · exact hother
  · obtain rfl := hat'.ended_iff.1 hended
    cases moves with
    | cancelled hdropped =>
      rw [hlater.guard hguard] at hdropped
      cases hdropped
    | missed hmissed => exact .inl hmissed
    | cleared => exact .inr rfl

/-! ## In every run -/

theorem safely_of_nil (h : s.copies = []) : s.Safely := by
  refine ⟨.of_nil h, fun i c hc => ?_⟩
  rw [h] at hc
  cases hc

theorem staged_run {start : ClipboardState} {events : List ClipboardEvent} (hs : start.Staged)
    (run : Trace.Any step start events s) : s.Staged :=
  run.inv hs fun h _ hstep => h.moves (step_moves h hstep)

/-- In every run whose steps are all safe each timer clears only what is its own; after a step that is not safe a timer
may do otherwise; and in every run the text of a copy whose guard is alive, and which nobody writes again, is off the
clipboard once its timer has run. -/
theorem timers_clear_own_iff {start : ClipboardState} (hstart : start.copies = []) :
    (∀ events s, Trace step Safe start events s → Trace step Proper start events s) ∧
    (∀ events s e s', Trace.Any step start events s → s.step e = some s' → ¬ s.Safe e →
      ∃ i, (s'.step (.timer i)).isSome ∧ ¬ s'.Proper (.timer i)) ∧
    (∀ before s text ttl copied after t, Trace.Any step start before s → s.step (.copy text ttl) = some copied →
      Trace step (fun _ e => ¬ e.Writes text) copied after t →
      ∀ c, t.copies[s.copies.length]? = some c → c.guard = true → c.Ended → t.content ≠ text ∨ t.content = "") := by
  refine ⟨fun events s run => ?_, fun events s e s' run hstep hnot => ?_,
    fun before s text ttl copied after t run hstep later c hc hguard hended => ?_⟩
  · refine run.allow (safely_of_nil hstart) (fun h hsafe hstep => h.moves hsafe (step_moves h.staged hstep)) ?_
    intro s e h hsafe i c _ hc hclears
    exact h.owned i c hc hclears
  · exact improper_of_not_safe (staged_run (.of_nil hstart) run) hstep hnot
  · have hs := staged_run (.of_nil hstart) run
    cases hstep
    generalize hn : s.copies.length = n at hc
    have hoff : (s.copyWithAutoclear text ttl).Staged ∧ (s.copyWithAutoclear text ttl).Off n text := by
      subst hn
      refine ⟨hs.moves (.copy text ttl), _, List.getElem?_concat_length .., rfl, fun _ hended => ?_⟩
      obtain ⟨r, hr⟩ := hended
      cases hr
    have keep : ∀ {s : ClipboardState} {e : ClipboardEvent} {s' : ClipboardState}, s.Staged ∧ s.Off n text →
        ¬ e.Writes text → s.step e = some s' → s'.Staged ∧ s'.Off n text := by
      intro s e s' h hno hstep
      have moves := step_moves h.1 hstep
      exact ⟨h.1.moves moves, h.2.moves moves hno⟩
    obtain ⟨-, c', hc', -, hgone⟩ := later.inv (I := fun s => s.Staged ∧ s.Off n text) hoff keep
    obtain rfl := Option.some.inj (hc.symm.trans hc')
    exact hgone hguard hended

/-- A copy, and its timer until it has found the text. -/
def foundEvents : List ClipboardEvent := [] ++ [.copy "secret" 30] ++ [.pass 30] ++ [.timer 0] ++ [.timer 0]

theorem found_run {allowed : ClipboardState → ClipboardEvent → Prop} (hcopy : allowed {} (.copy "secret" 30))
    (hpass : ∀ s, allowed s (.pass 30))
    (htimer : ∀ s : ClipboardState, s.writer = some (.copy 0) → allowed s (.timer 0)) :
    ∃ s, Trace step allowed {} foundEvents s ∧ s.writer = some (.copy 0) ∧
      s.copies = [⟨"secret", 30, true, clear⟩] := by
  have copied : Trace step allowed {} _ _ := Trace.nil.step hcopy rfl
  have passed := copied.step (hpass _) rfl
  have up := passed.step (htimer _ rfl) rfl
  exact ⟨_, up.step (htimer _ rfl) rfl, rfl, rfl⟩

/-- Another program writes between the read and the write of a timer, and what it wrote is gone. -/
theorem timer_clears_other : ¬ ∀ start : ClipboardState, start.copies = [] → ∀ events s,
    Trace.Any step start events s → Trace step Proper start events s := by
  intro hall
  obtain ⟨s, run, -, hcopies⟩ : ∃ s, Trace.Any step {} foundEvents s ∧ _ :=
    found_run trivial (fun _ => trivial) fun _ _ => trivial
  have hnoise : ¬ s.Safe (.other "text of the user") := by
    intro hquiet
    refine hquiet ⟨"secret", 30, true, clear⟩ ?_ ⟨"", _, rfl⟩
    rw [hcopies]
    exact List.mem_singleton_self _
  have written := run.step (e := .other "text of the user") trivial rfl
  obtain ⟨i, hsome, hnot⟩ := improper_of_not_safe (staged_run (.of_nil rfl) run) rfl hnoise
  obtain ⟨cleared, hstep⟩ := Option.isSome_iff_exists.1 hsome
  obtain ⟨m, before, hproper, -⟩ := (hall {} rfl _ _ (written.step trivial hstep)).last
  obtain rfl := before.state_eq written
  exact hnot hproper

/-- Where nobody writes then, the timer clears what is its own. -/
theorem timers_clear_own_iff_found : ∃ s, Trace step Proper {} (foundEvents ++ [.timer 0]) s ∧ s.content = "" := by
  have safe : ∀ s : ClipboardState, s.writer = some (.copy 0) → s.Safe (.timer 0) := by
    intro s hwriter c _ _ _
    refine ⟨by rw [hwriter]; exact nofun, fun j c hj hlt => ?_⟩
    rw [hwriter] at hj
    cases hj
    exact absurd hlt (Nat.lt_irrefl 0)
  have quiet : ({} : ClipboardState).Safe (.copy "secret" 30) := .inr fun c hc => by cases hc
  obtain ⟨s, run, hwriter, hcopies⟩ := found_run quiet (fun _ => trivial) safe
  obtain ⟨cleared, hstep, hcontent⟩ : ∃ cleared, s.step (.timer 0) = some cleared ∧ cleared.content = "" := by
    change ∃ cleared, (s.copies[0]?.bind fun c => s.timerStep 0 c) = some cleared ∧ _
    rw [hcopies]
    exact ⟨_, rfl, rfl⟩
  exact ⟨cleared, (timers_clear_own_iff rfl).1 _ _ (run.step (safe s hwriter) hstep), hcontent⟩

end ClipboardState

end Falach
