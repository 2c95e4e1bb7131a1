import Falach.Lib.Programs
/-!
# Parties that take turns

One party at a time may own a part of the shared state, as with a lock. What the owner knows of that part need not
survive the steps of another owner, for there is none.
-/

universe u v w x y

namespace System

variable {Op : Type u} {Answer : Op → Type v} {ε : Type w} {α : Type x} {G L : Type y} {ι : Type*} [DecidableEq ι]

/-- What has to be shown for the invariants `I` and `J` when at most one party owns: a request keeps what the others
know, if not both own, and makes an owner only of one that owned, or while nobody else does. -/
structure OwnedProof (S : System Op Answer ε α G L) (owns : L → Prop) (I : G → Prop) (J : G → L → Prop)
    (P : L → Op → Prop) (Q : L → α → Prop) (E : L → ε → Prop) where
  exec : ∀ {g l op a g' l'}, I g → J g l → P l op → S.exec g l op a g' l' → I g' ∧ J g' l'
  stable : ∀ {g l op a g' l'}, I g → J g l → P l op → S.exec g l op a g' l' → ∀ other, J g other →
    (owns l → ¬ owns other) → J g' other ∧ (owns l' → ¬ owns other)
  begins : ∀ {g l l' p}, I g → J g l → S.begins l l' p → J g l' ∧ (owns l' → owns l) ∧
    p.Upholds P (fun l op a l' => ∃ g g', I g ∧ J g l ∧ S.exec g l op a g' l') Q E l'
  returns : ∀ {g l a l'}, J g l → Q l a → S.returns l a l' → J g l' ∧ (owns l' → owns l)
  fails : ∀ {g l e l'}, J g l → E l e → S.fails l e l' → J g l' ∧ (owns l' → owns l)
  idles : ∀ {g l l'}, J g l → S.idles l l' → J g l' ∧ (owns l' → owns l)
  crashes : ∀ {g l l'}, J g l → S.crashes l l' → J g l' ∧ (owns l' → owns l)

namespace OwnedProof

variable {S : System Op Answer ε α G L} {owns : L → Prop} {I : G → Prop} {J : G → L → Prop} {P : L → Op → Prop}
  {Q : L → α → Prop} {E : L → ε → Prop}

/-- The invariants hold, at most one party owns, and every running program is where it upholds what it should. -/
structure Holds (S : System Op Answer ε α G L) (owns : L → Prop) (I : G → Prop) (J : G → L → Prop) (P : L → Op → Prop)
    (Q : L → α → Prop) (E : L → ε → Prop) (s : State Op Answer ε α G L ι) : Prop where
  shared : I s.shared
  party : ∀ i, J s.shared (s.party i)
  one : ∀ i j, i ≠ j → owns (s.party i) → ¬ owns (s.party j)
  running : ∀ i p, s.running i = some p →
    p.Upholds P (fun l op a l' => ∃ g g', I g ∧ J g l ∧ S.exec g l op a g' l') Q E (s.party i)

theorem Holds.set {s : State Op Answer ε α G L ι} (h : Holds S owns I J P Q E s) {i : ι} {g : G} {l : L}
    {p : Option (Program Op Answer ε α)} (hI : I g) (hJ : J g l)
    (stable : ∀ j, j ≠ i → J g (s.party j) ∧ (owns l → ¬ owns (s.party j)))
    (hp : ∀ p', p = some p' → p'.Upholds P (fun l op a l' => ∃ g g', I g ∧ J g l ∧ S.exec g l op a g' l') Q E l) :
    Holds S owns I J P Q E (s.set i g l p) := by
  have own : (s.set i g l p).party i = l := by simp [State.set]
  have other : ∀ {j}, j ≠ i → (s.set i g l p).party j = s.party j := fun hj => by simp [State.set, hj]
  refine ⟨hI, fun j => ?_, fun j k hjk hj hk => ?_, fun j p' hj => ?_⟩
  · by_cases hij : j = i
    · rw [hij, own]; exact hJ
    · rw [other hij]; exact (stable j hij).1
  · by_cases hij : j = i
    · have hik : k ≠ i := fun h => hjk (hij.trans h.symm)
      rw [hij, own] at hj
      rw [other hik] at hk
      exact (stable k hik).2 hj hk
    · rw [other hij] at hj
      by_cases hik : k = i
      · rw [hik, own] at hk
        exact (stable j hij).2 hk hj
      · rw [other hik] at hk
        exact h.one j k hjk hj hk
  · by_cases hij : j = i
    · subst hij
      rw [own]
      have hj : Function.update s.running j p j = some p' := hj
      rw [Function.update_self] at hj
      exact hp p' hj
    · rw [other hij]
      have hj : Function.update s.running i p j = some p' := hj
      rw [Function.update_of_ne hij] at hj
      exact h.running j p' hj

theorem step (pf : OwnedProof S owns I J P Q E) {s s' : State Op Answer ε α G L ι} (h : Holds S owns I J P Q E s)
    (hs : Step S s s') : Holds S owns I J P Q E s' := by
  -- a step that leaves the shared state alone makes no owner
  have quiet : ∀ {i l}, (owns l → owns (s.party i)) →
      ∀ j, j ≠ i → J s.shared (s.party j) ∧ (owns l → ¬ owns (s.party j)) := fun howns j hj =>
    ⟨h.party j, fun hl => h.one _ j (Ne.symm hj) (howns hl)⟩
  cases hs with
  | «begin» i hr hb =>
    obtain ⟨hJ, howns, hu⟩ := pf.begins h.shared (h.party i) hb
    exact h.set h.shared hJ (quiet howns) fun p' hp => by cases hp; exact hu
  | request i hr he =>
    obtain ⟨hP, hu⟩ := h.running i _ hr
    obtain ⟨hI, hJ⟩ := pf.exec h.shared (h.party i) hP he
    refine h.set hI hJ (fun j hj => ?_) fun p' hp => by cases hp; exact hu _ _ ⟨_, _, h.shared, h.party i, he⟩
    exact pf.stable h.shared (h.party i) hP he _ (h.party j) (h.one i j (Ne.symm hj))
  | «return» i hr hret =>
    obtain ⟨hJ, howns⟩ := pf.returns (h.party i) (h.running i _ hr) hret
    exact h.set h.shared hJ (quiet howns) fun _ hp => by cases hp
  | fail i hr hf =>
    obtain ⟨hJ, howns⟩ := pf.fails (h.party i) (h.running i _ hr) hf
    exact h.set h.shared hJ (quiet howns) fun _ hp => by cases hp
  | idle i hr hi =>
    obtain ⟨hJ, howns⟩ := pf.idles (h.party i) hi
    exact h.set h.shared hJ (quiet howns) fun _ hp => by cases hp
  | crash i hr hc =>
    obtain ⟨hJ, howns⟩ := pf.crashes (h.party i) hc
    exact h.set h.shared hJ (quiet howns) fun _ hp => by cases hp

/-- The invariants hold in every state a run reaches. -/
theorem reachable (pf : OwnedProof S owns I J P Q E) {s t : State Op Answer ε α G L ι} (h : Holds S owns I J P Q E s)
    (hr : Reachable S s t) : Holds S owns I J P Q E t := by
  induction hr with
  | start => exact h
  | step _ hs ih => exact pf.step ih hs

end OwnedProof

end System
