import Falach.Lib.Programs
/-!
# Systems seen through a map

A system whose parties hold more than those of another one. If its steps are steps of the other when what is more is
forgotten, so are its runs.
-/

universe u v w x y z

namespace System

variable {Op : Type u} {Answer : Op → Type v} {ε : Type w} {α : Type x} {G : Type y} {L L' : Type y} {ι : Type*}

/-- Every step of `S` is one of `T` when parties are seen through `f`. -/
structure Simulation (S : System Op Answer ε α G L) (T : System Op Answer ε α G L') (f : L → L') : Prop where
  exec : ∀ {g l op a g' l'}, S.exec g l op a g' l' → T.exec g (f l) op a g' (f l')
  begins : ∀ {l l' p}, S.begins l l' p → T.begins (f l) (f l') p
  returns : ∀ {l a l'}, S.returns l a l' → T.returns (f l) a (f l')
  fails : ∀ {l e l'}, S.fails l e l' → T.fails (f l) e (f l')
  idles : ∀ {l l'}, S.idles l l' → T.idles (f l) (f l')
  crashes : ∀ {l l'}, S.crashes l l' → T.crashes (f l) (f l')

/-- The state with its parties seen through `f`. -/
def State.map (f : L → L') (s : State Op Answer ε α G L ι) : State Op Answer ε α G L' ι :=
  ⟨s.shared, fun i => f (s.party i), s.running⟩

variable [DecidableEq ι] {S : System Op Answer ε α G L} {T : System Op Answer ε α G L'} {f : L → L'}
  {s t : State Op Answer ε α G L ι}

theorem State.map_set (i : ι) (g : G) (l : L) (p : Option (Program Op Answer ε α)) :
    (s.set i g l p).map f = (s.map f).set i g (f l) p := by
  unfold State.map State.set
  have hparty : (fun j => f (Function.update s.party i l j)) = Function.update (fun j => f (s.party j)) i (f l) :=
    Function.comp_update f s.party i l
  rw [hparty]

theorem Simulation.step (sim : Simulation S T f) (h : Step S s t) : Step T (s.map f) (t.map f) := by
  cases h with
  | «begin» i hr hb =>
    rw [State.map_set]
    exact .begin i hr (sim.begins hb)
  | request i hr he =>
    rw [State.map_set]
    exact .request i hr (sim.exec he)
  | «return» i hr hret =>
    rw [State.map_set]
    exact .return i hr (sim.returns hret)
  | fail i hr hf =>
    rw [State.map_set]
    exact .fail i hr (sim.fails hf)
  | idle i hr hi =>
    rw [State.map_set]
    exact .idle i hr (sim.idles hi)
  | crash i hr hc =>
    rw [State.map_set]
    exact .crash i hr (sim.crashes hc)

/-- What `S` reaches, `T` reaches. -/
theorem Simulation.reachable (sim : Simulation S T f) (h : Reachable S s t) : Reachable T (s.map f) (t.map f) := by
  induction h with
  | start => exact .start
  | step _ hs ih => exact ih.step (sim.step hs)

end System
