import Mathlib.Data.List.Induction
/-!
# Runs with their events

The runs of a system that takes a step at each event, or cannot: the events in their order, and the state after them. Of
a run it may be asked that each step meets a condition, on the state before it and the event.
-/

universe u v

/-- The runs from `start` whose steps are all `allowed`. -/
inductive Trace {S : Type u} {E : Type v} (step : S → E → Option S) (allowed : S → E → Prop) (start : S) :
    List E → S → Prop where
  | nil : Trace step allowed start [] start
  | step {es : List E} {s s' : S} {e : E} :
      Trace step allowed start es s → allowed s e → step s e = some s' → Trace step allowed start (es ++ [e]) s'

/-- All runs. -/
abbrev Trace.Any {S : Type u} {E : Type v} (step : S → E → Option S) (start : S) : List E → S → Prop :=
  Trace step (fun _ _ => True) start

namespace Trace

variable {S : Type u} {E : Type v} {step : S → E → Option S} {allowed allowed' : S → E → Prop} {start s : S}
    {es : List E}

/-- What holds at the start and is kept by every step that is allowed holds after every run. -/
theorem inv {I : S → Prop} (init : I start) (keep : ∀ {s e s'}, I s → allowed s e → step s e = some s' → I s')
    (run : Trace step allowed start es s) : I s := by
  induction run with
  | nil => exact init
  | step _ hallowed hstep ih => exact keep ih hallowed hstep

/-- With an invariant, each step meets what follows from it and from the condition. -/
theorem allow {I : S → Prop} (init : I start) (keep : ∀ {s e s'}, I s → allowed s e → step s e = some s' → I s')
    (implies : ∀ {s e}, I s → allowed s e → allowed' s e) (run : Trace step allowed start es s) :
    Trace step allowed' start es s := by
  induction run with
  | nil => exact .nil
  | step run hallowed hstep ih => exact .step ih (implies (run.inv init keep) hallowed) hstep

theorem any (run : Trace step allowed start es s) : Trace.Any step start es s :=
  run.allow (I := fun _ => True) trivial (fun _ _ _ => trivial) fun _ _ => trivial

/-- The last step of a run. -/
theorem last {e : E} (run : Trace step allowed start (es ++ [e]) s) :
    ∃ m, Trace step allowed start es m ∧ allowed m e ∧ step m e = some s := by
  generalize hes : es ++ [e] = all at run
  cases run with
  | nil => exact absurd hes (by simp)
  | step run hallowed hstep =>
    obtain ⟨rfl, he⟩ := List.append_inj' hes rfl
    cases he
    exact ⟨_, run, hallowed, hstep⟩

/-- The events decide the state. -/
theorem state_eq {s' : S} (run : Trace step allowed start es s) (run' : Trace step allowed' start es s') : s = s' := by
  induction run generalizing s' with
  | nil =>
    generalize hes : ([] : List E) = es at run'
    cases run' with
    | nil => rfl
    | step _ _ _ => exact absurd hes (by simp)
  | step _ _ hstep ih =>
    obtain ⟨m, run', -, hstep'⟩ := run'.last
    obtain rfl := ih run'
    exact Option.some.inj (hstep.symm.trans hstep')

end Trace
