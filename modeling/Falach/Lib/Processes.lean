import Falach.Lib.Programs
/-!
# Processes and what they hold

Any number of processes run programs against a shared state. What a process holds, such as open files and their locks,
is its own, but every request may look at what the others hold. A process may end anywhere, and then it holds nothing.
-/

universe u v w x y

/-- How the request of a process changes the shared state and what the process holds, given what all of them hold. -/
structure Kernel (Op : Type u) (Answer : Op → Type v) (G L : Type y) (ι : Type*) where
  exec : G → (ι → L) → ι → (op : Op) → Answer op → G → L → Prop
  nothing : L

namespace Kernel

variable {Op : Type u} {Answer : Op → Type v} {ε : Type w} {α : Type x} {G L : Type y} {ι : Type*}

structure State (Op : Type u) (Answer : Op → Type v) (ε : Type w) (α : Type x) (G L : Type y) (ι : Type*) where
  shared : G
  held : ι → L
  running : ι → Option (Program Op Answer ε α)

/-- Before any process has started. -/
def State.start (K : Kernel Op Answer G L ι) (g : G) : State Op Answer ε α G L ι :=
  ⟨g, fun _ => K.nothing, fun _ => none⟩

variable [DecidableEq ι]

/-- The state after a step of process `i`. -/
def State.set (s : State Op Answer ε α G L ι) (i : ι) (g : G) (l : L) (p : Option (Program Op Answer ε α)) :
    State Op Answer ε α G L ι :=
  ⟨g, Function.update s.held i l, Function.update s.running i p⟩

/-- One step of one process. A program that has come to its end stops, and so may any other: that is a crash. -/
inductive Step (K : Kernel Op Answer G L ι) (calls : ι → Program Op Answer ε α → Prop) (s : State Op Answer ε α G L ι) :
    State Op Answer ε α G L ι → Prop where
  | «begin» (i : ι) {p : Program Op Answer ε α} :
      s.running i = none → calls i p → Step K calls s (s.set i s.shared K.nothing (some p))
  | request (i : ι) {op : Op} {k : Answer op → Program Op Answer ε α} {a : Answer op} {g : G} {l : L} :
      s.running i = some (.ask op k) → K.exec s.shared s.held i op a g l → Step K calls s (s.set i g l (some (k a)))
  | stop (i : ι) {p : Program Op Answer ε α} :
      s.running i = some p → Step K calls s (s.set i s.shared K.nothing none)

/-- The states some run from `s` reaches. -/
inductive Reachable (K : Kernel Op Answer G L ι) (calls : ι → Program Op Answer ε α → Prop)
    (s : State Op Answer ε α G L ι) :
    State Op Answer ε α G L ι → Prop where
  | start : Reachable K calls s s
  | step {t t' : State Op Answer ε α G L ι} : Reachable K calls s t → Step K calls t t' → Reachable K calls s t'

/-- The kernel whose requests all go as `allowed`. -/
def restrict (K : Kernel Op Answer G L ι) (allowed : G → (ι → L) → ι → (op : Op) → Answer op → Prop) :
    Kernel Op Answer G L ι :=
  { K with exec := fun g held i op a g' l' => allowed g held i op a ∧ K.exec g held i op a g' l' }

/-- What a process sees of a request while `I` holds. -/
def Seen (K : Kernel Op Answer G L ι) (I : G → (ι → L) → Prop) (l : L) (op : Op) (a : Answer op) (l' : L) : Prop :=
  ∃ g held i g', I g held ∧ held i = l ∧ K.exec g held i op a g' l'

/-- What has to be shown for the invariant `I` to hold in all runs: a request that `P` allows keeps it, and so does an
end, and each program asks for nothing else, whatever the others do between two of its requests. -/
structure Proof (K : Kernel Op Answer G L ι) (calls : ι → Program Op Answer ε α → Prop) (I : G → (ι → L) → Prop)
    (P : L → Op → Prop) (Q : L → α → Prop) (E : L → ε → Prop) where
  exec : ∀ {g held i op a g' l'}, I g held → P (held i) op → K.exec g held i op a g' l' →
    I g' (Function.update held i l')
  stop : ∀ {g held} i, I g held → I g (Function.update held i K.nothing)
  calls : ∀ {i p}, calls i p → p.Upholds P (K.Seen I) Q E K.nothing

namespace Proof

variable {K : Kernel Op Answer G L ι} {calls : ι → Program Op Answer ε α → Prop} {I : G → (ι → L) → Prop}
    {P : L → Op → Prop}
  {Q : L → α → Prop} {E : L → ε → Prop}

/-- The invariant holds, and every program is at a place where it upholds what it is judged by. -/
structure Holds (K : Kernel Op Answer G L ι) (I : G → (ι → L) → Prop) (P : L → Op → Prop) (Q : L → α → Prop)
    (E : L → ε → Prop) (s : State Op Answer ε α G L ι) : Prop where
  inv : I s.shared s.held
  running : ∀ i p, s.running i = some p → p.Upholds P (K.Seen I) Q E (s.held i)

theorem Holds.set {s : State Op Answer ε α G L ι} (h : Holds K I P Q E s) {i : ι} {g : G} {l : L}
    {p : Option (Program Op Answer ε α)} (hI : I g (Function.update s.held i l))
    (hp : ∀ p', p = some p' → p'.Upholds P (K.Seen I) Q E l) : Holds K I P Q E (s.set i g l p) := by
  refine ⟨hI, fun j p' hj => ?_⟩
  by_cases hij : j = i
  · subst hij
    simp only [State.set, Function.update_self] at hj ⊢
    exact hp p' hj
  · simp only [State.set, Function.update_of_ne hij] at hj ⊢
    exact h.running j p' hj

theorem step (pf : Proof K calls I P Q E) {s s' : State Op Answer ε α G L ι} (h : Holds K I P Q E s)
    (hs : Step K calls s s') :
    Holds K I P Q E s' := by
  cases hs with
  | «begin» i _ hcall => exact h.set (pf.stop i h.inv) fun p' hp => by cases hp; exact pf.calls hcall
  | request i hr he =>
    obtain ⟨hP, hu⟩ := h.running i _ hr
    exact h.set (pf.exec h.inv hP he) fun p' hp => by cases hp; exact hu _ _ ⟨_, _, i, _, h.inv, rfl, he⟩
  | stop i _ => exact h.set (pf.stop i h.inv) fun _ hp => by cases hp

/-- What holds before any process has started holds in every state a run reaches. -/
theorem reachable (pf : Proof K calls I P Q E) {g : G} (hI : I g fun _ => K.nothing) {t : State Op Answer ε α G L ι}
    (hr : Reachable K calls (State.start K g) t) : Holds K I P Q E t := by
  induction hr with
  | start => exact ⟨hI, fun _ _ h => by cases h⟩
  | step _ hs ih => exact pf.step ih hs

end Proof

end Kernel
