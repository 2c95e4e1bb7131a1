import Mathlib.Logic.Function.Basic
/-!
# Programs and the parties that run them

A program computes on its own, asks its surroundings for something, goes on with the answer, and in the end
returns or fails. What holds between two requests is out of its hands, so a program is judged by what it may
ask for and with what it may end, whatever the answers are.

A system is a shared state and any number of parties. Each runs a program from time to time, and each request
of each program is a step of its own: the steps of different parties may come in any order.
-/

universe u v w x y

/-- A program that asks for `op : Op`, is given an `Answer op`, returns an `α` or fails with an `ε`. -/
inductive Program (Op : Type u) (Answer : Op → Type v) (ε : Type w) (α : Type x) where
  | done (a : α)
  | fail (e : ε)
  | ask (op : Op) (k : Answer op → Program Op Answer ε α)

namespace Program

variable {Op : Type u} {Answer : Op → Type v} {ε : Type w} {α β : Type x}

protected def bind (p : Program Op Answer ε α) (f : α → Program Op Answer ε β) : Program Op Answer ε β :=
  match p with
  | done a => f a
  | fail e => fail e
  | ask op k => ask op fun a => (k a).bind f

instance : Monad (Program Op Answer ε) where
  pure := done
  bind := Program.bind

/-- Ask, and return the answer. -/
def request (Answer : Op → Type x) (op : Op) : Program Op Answer ε (Answer op) := ask op done

/-- Go on with a result, or fail with its error. -/
def ofExcept : Except ε α → Program Op Answer ε α
  | .ok a => done a
  | .error e => fail e

/-- The program, asked of surroundings that understand its requests; how it ends is returned. -/
def lift {Op' : Type u} {Answer' : Op' → Type v} {ε' : Type w} (inj : Op → Op')
    (answer : (op : Op) → Answer' (inj op) → Answer op) :
    Program Op Answer ε α → Program Op' Answer' ε' (Except ε α)
  | done a => done (.ok a)
  | fail e => done (.error e)
  | ask op k => ask (inj op) fun a => (k (answer op a)).lift inj answer

@[simp] theorem pure_eq (a : α) : (pure a : Program Op Answer ε α) = done a := rfl
@[simp] theorem done_bind (a : α) (f : α → Program Op Answer ε β) : (done a >>= f) = f a := rfl
@[simp] theorem fail_bind (e : ε) (f : α → Program Op Answer ε β) : (fail e >>= f) = fail e := rfl
@[simp] theorem ask_bind (op : Op) (k : Answer op → Program Op Answer ε α) (f : α → Program Op Answer ε β) :
    (ask op k >>= f) = ask op fun a => k a >>= f := rfl
@[simp] theorem ofExcept_ok (a : α) : (ofExcept (.ok a) : Program Op Answer ε α) = done a := rfl
@[simp] theorem ofExcept_error (e : ε) : (ofExcept (.error e) : Program Op Answer ε α) = fail e := rfl

/-- The run of a program whose every request `op` is given the answer `answers op`. -/
def answered (answers : (op : Op) → Answer op) : Program Op Answer ε α → Except ε α
  | done a => .ok a
  | fail e => .error e
  | ask op k => (k (answers op)).answered answers

@[simp] theorem answered_done (answers : (op : Op) → Answer op) (a : α) :
    (done a : Program Op Answer ε α).answered answers = .ok a := rfl
@[simp] theorem answered_bind (answers : (op : Op) → Answer op) (p : Program Op Answer ε α)
    (f : α → Program Op Answer ε β) :
    (p >>= f).answered answers = p.answered answers >>= fun a => (f a).answered answers := by
  induction p with
  | done a => rfl
  | fail e => rfl
  | ask op k ih => exact ih _
@[simp] theorem answered_request {Answer : Op → Type x} (answers : (op : Op) → Answer op) (op : Op) :
    (request Answer op : Program Op Answer ε (Answer op)).answered answers = .ok (answers op) := rfl
@[simp] theorem answered_ofExcept (answers : (op : Op) → Answer op) (r : Except ε α) :
    (ofExcept r : Program Op Answer ε α).answered answers = r := by
  cases r <;> rfl

/-- A lifted program ends as it ends with the answers it understands. -/
theorem answered_lift {Op' : Type u} {Answer' : Op' → Type v} {ε' : Type w} {inj : Op → Op'}
    {answer : (op : Op) → Answer' (inj op) → Answer op} (answers : (op : Op') → Answer' op)
    (p : Program Op Answer ε α) :
    (p.lift inj answer : Program Op' Answer' ε' (Except ε α)).answered answers =
      .ok (p.answered fun op => answer op (answers (inj op))) := by
  induction p with
  | done a => rfl
  | fail e => rfl
  | ask op k ih => exact ih _

/-! ## What a program upholds -/

/-- From the state `l`, the program asks only for what `P` allows, and ends in a state that satisfies `Q` or `E`,
when an answer can change the state only as `next` says. -/
def Upholds {L : Type y} (P : L → Op → Prop) (next : L → (op : Op) → Answer op → L → Prop)
    (Q : L → α → Prop) (E : L → ε → Prop) (l : L) : Program Op Answer ε α → Prop
  | done a => Q l a
  | fail e => E l e
  | ask op k => P l op ∧ ∀ a l', next l op a l' → Upholds P next Q E l' (k a)

variable {L : Type y} {P : L → Op → Prop} {next : L → (op : Op) → Answer op → L → Prop} {E : L → ε → Prop}

theorem Upholds.bind {Q : L → β → Prop} {p : Program Op Answer ε α} {f : α → Program Op Answer ε β} {l : L}
    (h : Upholds P next (fun l a => Upholds P next Q E l (f a)) E l p) : Upholds P next Q E l (p >>= f) := by
  induction p generalizing l with
  | done a => exact h
  | fail e => exact h
  | ask op k ih => exact ⟨h.1, fun a l' hn => ih a (h.2 a l' hn)⟩

theorem Upholds.mono {Q Q' : L → α → Prop} {p : Program Op Answer ε α} {l : L} (hQ : ∀ l a, Q l a → Q' l a)
    (h : Upholds P next Q E l p) : Upholds P next Q' E l p := by
  induction p generalizing l with
  | done a => exact hQ l a h
  | fail e => exact h
  | ask op k ih => exact ⟨h.1, fun a l' hn => ih a (h.2 a l' hn)⟩

/-- With fewer answers to expect, a program upholds what it upheld. -/
theorem Upholds.restrict {next' : L → (op : Op) → Answer op → L → Prop} {Q : L → α → Prop} {p : Program Op Answer ε α}
    {l : L} (h : Upholds P next Q E l p) (hn : ∀ {l op a l'}, next' l op a l' → next l op a l') :
    Upholds P next' Q E l p := by
  induction p generalizing l with
  | done a => exact h
  | fail e => exact h
  | ask op k ih => exact ⟨h.1, fun a l' hx => ih a (h.2 a l' (hn hx))⟩

/-- Asking is allowed, and the program goes on from every state the answer may lead to. -/
theorem Upholds.request {Answer : Op → Type x} {P : L → Op → Prop} {next : L → (op : Op) → Answer op → L → Prop}
    {Q : L → β → Prop} {op : Op} {f : Answer op → Program Op Answer ε β} {l : L} (hp : P l op)
    (h : ∀ a l', next l op a l' → Upholds P next Q E l' (f a)) :
    Upholds P next Q E l (Program.request Answer op >>= f) := ⟨hp, h⟩

theorem Upholds.ofExcept {Q : L → β → Prop} {r : Except ε α} {f : α → Program Op Answer ε β} {l : L}
    (ok : ∀ a, r = .ok a → Upholds P next Q E l (f a)) (error : ∀ e, r = .error e → E l e) :
    Upholds P next Q E l (Program.ofExcept r >>= f) := by
  cases r with
  | ok a => exact ok a rfl
  | error e => exact error e rfl

/-- A lifted program upholds what the program upholds with the answers it understands. -/
theorem Upholds.lift {Op' : Type u} {Answer' : Op' → Type v} {ε' : Type w} {inj : Op → Op'}
    {answer : (op : Op) → Answer' (inj op) → Answer op} {P : L → Op' → Prop}
    {next : L → (op : Op') → Answer' op → L → Prop} {Q : L → Except ε α → Prop} {E : L → ε' → Prop}
    {p : Program Op Answer ε α} {l : L}
    (h : p.Upholds (fun l op => P l (inj op)) (fun l op a l' => ∃ a', answer op a' = a ∧ next l (inj op) a' l')
      (fun l a => Q l (.ok a)) (fun l e => Q l (.error e)) l) : Upholds P next Q E l (p.lift inj answer) := by
  induction p generalizing l with
  | done a => exact h
  | fail e => exact h
  | ask op k ih => exact ⟨h.1, fun a l' hn => ih _ (h.2 _ l' ⟨a, rfl, hn⟩)⟩

/-! ## What a program does -/

/-- How a run ends: with a result, with an error, or in the middle of a request. -/
inductive Ending (ε : Type w) (α : Type x) where
  | returned (a : α)
  | failed (e : ε)
  | panicked

/-- The run of a program from `l` to its end in `l'`; `panics` says which requests may end it there and then. -/
inductive Runs {L : Type y} (next : L → (op : Op) → Answer op → L → Prop) (panics : L → Op → Prop) :
    L → Program Op Answer ε α → L → Ending ε α → Prop where
  | done {l : L} {a : α} : Runs next panics l (done a) l (.returned a)
  | fail {l : L} {e : ε} : Runs next panics l (fail e) l (.failed e)
  | ask {l l' l'' : L} {op : Op} {k : Answer op → Program Op Answer ε α} {a : Answer op} {r : Ending ε α} :
      next l op a l' → Runs next panics l' (k a) l'' r → Runs next panics l (ask op k) l'' r
  | panic {l : L} {op : Op} {k : Answer op → Program Op Answer ε α} :
      panics l op → Runs next panics l (ask op k) l .panicked

/-- The states a run from `l` passes through, whether or not it ever ends: it may be cut off in any of them. -/
inductive Visits {L : Type y} (next : L → (op : Op) → Answer op → L → Prop) : L → Program Op Answer ε α → L → Prop where
  | here {l : L} {p : Program Op Answer ε α} : Visits next l p l
  | later {l l' l'' : L} {op : Op} {k : Answer op → Program Op Answer ε α} {a : Answer op} :
      next l op a l' → Visits next l' (k a) l'' → Visits next l (ask op k) l''

section

variable {L : Type y} {P : L → Op → Prop} {next : L → (op : Op) → Answer op → L → Prop} {Q : L → α → Prop}
  {E : L → ε → Prop} {panics : L → Op → Prop} {l l' : L} {p : Program Op Answer ε α}

theorem Upholds.returned (h : Upholds P next Q E l p) {a : α} (run : Runs next panics l p l' (.returned a)) :
    Q l' a := by
  generalize hr : Ending.returned a = r at run
  induction run with
  | done => cases hr; exact h
  | fail => cases hr
  | ask hn _ ih => exact ih (h.2 _ _ hn) hr
  | panic _ => cases hr

theorem Upholds.failed (h : Upholds P next Q E l p) {e : ε} (run : Runs next panics l p l' (.failed e)) : E l' e := by
  generalize hr : Ending.failed e = r at run
  induction run with
  | done => cases hr
  | fail => cases hr; exact h
  | ask hn _ ih => exact ih (h.2 _ _ hn) hr
  | panic _ => cases hr

/-- A program that asks for nothing that can panic does not panic. -/
theorem Upholds.not_panicked (h : Upholds P next Q E l p) (hp : ∀ l op, P l op → ¬panics l op) :
    ¬Runs next panics l p l' .panicked := by
  intro run
  generalize hr : Ending.panicked = r at run
  induction run with
  | done => cases hr
  | fail => cases hr
  | ask hn _ ih => exact ih (h.2 _ _ hn) hr
  | panic hx => exact hp _ _ h.1 hx

theorem Visits.mono {next' : L → (op : Op) → Answer op → L → Prop} (visit : Visits next l p l')
    (hn : ∀ {l op a l'}, next l op a l' → next' l op a l') : Visits next' l p l' := by
  induction visit with
  | here => exact .here
  | later h _ ih => exact .later (hn h) ih

theorem Runs.mono {next' : L → (op : Op) → Answer op → L → Prop} {r : Ending ε α} (run : Runs next panics l p l' r)
    (hn : ∀ {l op a l'}, next l op a l' → next' l op a l') : Runs next' panics l p l' r := by
  induction run with
  | done => exact .done
  | fail => exact .fail
  | ask h _ ih => exact .ask (hn h) ih
  | panic h => exact .panic h

/-- A run through a program that goes on with a result goes through the program to a result, and on from there. -/
theorem Runs.bind {β : Type x} {f : α → Program Op Answer ε β} {b : β}
    (run : Runs next panics l (p >>= f) l' (.returned b)) :
    ∃ a l₁, Runs next panics l p l₁ (.returned a) ∧ Runs next panics l₁ (f a) l' (.returned b) := by
  induction p generalizing l with
  | done a => exact ⟨a, l, .done, run⟩
  | fail e => cases run
  | ask op k ih =>
    cases run with
    | ask hn run =>
      obtain ⟨a, l₁, first, rest⟩ := ih _ run
      exact ⟨a, l₁, .ask hn first, rest⟩

/-- A run through a request goes on with its answer. -/
theorem Runs.request {Answer : Op → Type x} {next : L → (op : Op) → Answer op → L → Prop} {β : Type x} {op : Op}
    {f : Answer op → Program Op Answer ε β} {b : β}
    (run : Runs next panics l (Program.request Answer op >>= f) l' (.returned b)) :
    ∃ a l₁, next l op a l₁ ∧ Runs next panics l₁ (f a) l' (.returned b) := by
  obtain ⟨a, l₁, first, rest⟩ := run.bind
  cases first with
  | ask hn first =>
    cases first
    exact ⟨_, _, hn, rest⟩

/-- What a program returns at once is what its run returns. -/
theorem Runs.eq_of_done {a a' : α}
    (run : Runs next panics l (Program.done a : Program Op Answer ε α) l' (.returned a')) : a' = a := by
  cases run
  rfl

/-- What holds wherever the program asks and wherever it ends holds at every moment. -/
theorem Upholds.visits {I : L → Prop}
    (h : Upholds (fun l op => I l ∧ P l op) next (fun l _ => I l) (fun l _ => I l) l p)
    (visit : Visits next l p l') : I l' := by
  induction visit with
  | @here l p =>
    cases p with
    | done a => exact h
    | fail e => exact h
    | ask op k => exact h.1.1
  | later hn _ ih => exact ih (h.2 _ _ hn)

end

end Program

/-! ## Systems of parties -/

/-- How requests change the shared state `G` and the state `L` of the party that asks, and what a party does
around its programs: `crash` ends a program wherever it is. -/
structure System (Op : Type u) (Answer : Op → Type v) (ε : Type w) (α : Type x) (G L : Type y) where
  exec : G → L → (op : Op) → Answer op → G → L → Prop
  begins : L → L → Program Op Answer ε α → Prop
  returns : L → α → L → Prop
  fails : L → ε → L → Prop
  idles : L → L → Prop
  crashes : L → L → Prop

namespace System

variable {Op : Type u} {Answer : Op → Type v} {ε : Type w} {α : Type x} {G L : Type y} {ι : Type*}

structure State (Op : Type u) (Answer : Op → Type v) (ε : Type w) (α : Type x) (G L : Type y) (ι : Type*) where
  shared : G
  party : ι → L
  running : ι → Option (Program Op Answer ε α)

variable [DecidableEq ι]

/-- The state after a step of party `i`. -/
def State.set (s : State Op Answer ε α G L ι) (i : ι) (g : G) (l : L) (p : Option (Program Op Answer ε α)) :
    State Op Answer ε α G L ι :=
  ⟨g, Function.update s.party i l, Function.update s.running i p⟩

/-- One step of one party. -/
inductive Step (S : System Op Answer ε α G L) (s : State Op Answer ε α G L ι) : State Op Answer ε α G L ι → Prop where
  | «begin» (i : ι) {l : L} {p : Program Op Answer ε α} :
      s.running i = none → S.begins (s.party i) l p → Step S s (s.set i s.shared l (some p))
  | request (i : ι) {op : Op} {k : Answer op → Program Op Answer ε α} {a : Answer op} {g : G} {l : L} :
      s.running i = some (.ask op k) → S.exec s.shared (s.party i) op a g l → Step S s (s.set i g l (some (k a)))
  | «return» (i : ι) {a : α} {l : L} :
      s.running i = some (.done a) → S.returns (s.party i) a l → Step S s (s.set i s.shared l none)
  | fail (i : ι) {e : ε} {l : L} :
      s.running i = some (.fail e) → S.fails (s.party i) e l → Step S s (s.set i s.shared l none)
  | idle (i : ι) {l : L} :
      s.running i = none → S.idles (s.party i) l → Step S s (s.set i s.shared l none)
  | crash (i : ι) {p : Program Op Answer ε α} {l : L} :
      s.running i = some p → S.crashes (s.party i) l → Step S s (s.set i s.shared l none)

/-- The states some run from `s` reaches. -/
inductive Reachable (S : System Op Answer ε α G L) (s : State Op Answer ε α G L ι) :
    State Op Answer ε α G L ι → Prop where
  | start : Reachable S s s
  | step {t t' : State Op Answer ε α G L ι} : Reachable S s t → Step S t t' → Reachable S s t'

/-- What has to be shown of a system for the invariants `I` and `J` to hold in all its runs: a request that `P`
allows keeps them, also for the parties that did not ask. -/
structure Proof (S : System Op Answer ε α G L) (I : G → Prop) (J : G → L → Prop) (P : L → Op → Prop)
    (Q : L → α → Prop) (E : L → ε → Prop) where
  exec : ∀ {g l op a g' l'}, I g → J g l → P l op → S.exec g l op a g' l' → I g' ∧ J g' l'
  stable : ∀ {g l op a g' l'}, I g → J g l → P l op → S.exec g l op a g' l' → ∀ other, J g other → J g' other
  begins : ∀ {g l l' p}, I g → J g l → S.begins l l' p → J g l' ∧
    p.Upholds P (fun l op a l' => ∃ g g', I g ∧ J g l ∧ S.exec g l op a g' l') Q E l'
  returns : ∀ {g l a l'}, J g l → Q l a → S.returns l a l' → J g l'
  fails : ∀ {g l e l'}, J g l → E l e → S.fails l e l' → J g l'
  idles : ∀ {g l l'}, J g l → S.idles l l' → J g l'
  crashes : ∀ {g l l'}, J g l → S.crashes l l' → J g l'

namespace Proof

variable {S : System Op Answer ε α G L} {I : G → Prop} {J : G → L → Prop} {P : L → Op → Prop} {Q : L → α → Prop}
  {E : L → ε → Prop}

/-- The invariants hold, and every running program is at a place where it upholds what its party is judged by. -/
structure Holds (S : System Op Answer ε α G L) (I : G → Prop) (J : G → L → Prop) (P : L → Op → Prop) (Q : L → α → Prop)
    (E : L → ε → Prop) (s : State Op Answer ε α G L ι) : Prop where
  shared : I s.shared
  party : ∀ i, J s.shared (s.party i)
  running : ∀ i p, s.running i = some p →
    p.Upholds P (fun l op a l' => ∃ g g', I g ∧ J g l ∧ S.exec g l op a g' l') Q E (s.party i)

theorem Holds.set {s : State Op Answer ε α G L ι} (h : Holds S I J P Q E s) {i : ι} {g : G} {l : L}
    {p : Option (Program Op Answer ε α)} (hI : I g) (hJ : J g l) (stable : ∀ other, J s.shared other → J g other)
    (hp : ∀ p', p = some p' → p'.Upholds P (fun l op a l' => ∃ g g', I g ∧ J g l ∧ S.exec g l op a g' l') Q E l) :
    Holds S I J P Q E (s.set i g l p) := by
  refine ⟨hI, fun j => ?_, fun j p' hj => ?_⟩
  · by_cases hij : j = i
    · subst hij; simpa [State.set] using hJ
    · simpa [State.set, hij] using stable _ (h.party j)
  · by_cases hij : j = i
    · subst hij
      simp only [State.set, Function.update_self] at hj ⊢
      exact hp p' hj
    · simp only [State.set, Function.update_of_ne hij] at hj ⊢
      exact h.running j p' hj

theorem step (pf : Proof S I J P Q E) {s s' : State Op Answer ε α G L ι} (h : Holds S I J P Q E s) (hs : Step S s s') :
    Holds S I J P Q E s' := by
  cases hs with
  | «begin» i hr hb =>
    obtain ⟨hJ, hu⟩ := pf.begins h.shared (h.party i) hb
    exact h.set h.shared hJ (fun _ ho => ho) fun p' hp => by cases hp; exact hu
  | request i hr he =>
    obtain ⟨hP, hu⟩ := h.running i _ hr
    obtain ⟨hI, hJ⟩ := pf.exec h.shared (h.party i) hP he
    exact h.set hI hJ (pf.stable h.shared (h.party i) hP he) fun p' hp => by
      cases hp; exact hu _ _ ⟨_, _, h.shared, h.party i, he⟩
  | «return» i hr hret =>
    exact h.set h.shared (pf.returns (h.party i) (h.running i _ hr) hret) (fun _ ho => ho) fun _ hp => by cases hp
  | fail i hr hf =>
    exact h.set h.shared (pf.fails (h.party i) (h.running i _ hr) hf) (fun _ ho => ho) fun _ hp => by cases hp
  | idle i hr hi => exact h.set h.shared (pf.idles (h.party i) hi) (fun _ ho => ho) fun _ hp => by cases hp
  | crash i hr hc => exact h.set h.shared (pf.crashes (h.party i) hc) (fun _ ho => ho) fun _ hp => by cases hp

/-- The invariants hold in every state a run reaches. -/
theorem reachable (pf : Proof S I J P Q E) {s t : State Op Answer ε α G L ι} (h : Holds S I J P Q E s)
    (hr : Reachable S s t) : Holds S I J P Q E t := by
  induction hr with
  | start => exact h
  | step _ hs ih => exact pf.step ih hs

end Proof

end System
