import Mathlib.Data.List.Nodup
/-!
# Loops that may fail

A loop over a list is `List.foldlM` in `Except`. Each rule below is one
induction over the list, so that a fact about a loop needs only a fact about
its body.
-/

universe u v w

namespace Loop

variable {ε : Type u} {σ : Type v} {α : Type w} {f : σ → α → Except ε σ}

theorem bind_ok {α β : Type v} {x : Except ε α} {g : α → Except ε β} {b : β} :
    (x >>= g) = .ok b ↔ ∃ a, x = .ok a ∧ g a = .ok b := by
  cases x with
  | error e => simp [bind, Except.bind]
  | ok a => simp [bind, Except.bind]

theorem mapError_ok {ε' : Type w} {α : Type v} {x : Except ε α} {f : ε → ε'} {a : α} :
    x.mapError f = .ok a ↔ x = .ok a := by
  cases x with
  | error e => exact iff_of_false nofun nofun
  | ok b => exact ⟨fun h => congrArg Except.ok (Except.ok.inj h), fun h => congrArg Except.ok (Except.ok.inj h)⟩

@[simp] theorem pure_ok {α : Type v} {a b : α} : (pure a : Except ε α) = .ok b ↔ a = b := by
  simp [pure, Except.pure]

theorem foldlM_cons_ok {s s' : σ} {x : α} {l : List α} :
    List.foldlM f s (x :: l) = .ok s' ↔ ∃ t, f s x = .ok t ∧ List.foldlM f t l = .ok s' := by
  rw [List.foldlM_cons, bind_ok]

theorem foldlM_append_ok {s s' : σ} {l l' : List α} :
    List.foldlM f s (l ++ l') = .ok s' ↔ ∃ t, List.foldlM f s l = .ok t ∧ List.foldlM f t l' = .ok s' := by
  rw [List.foldlM_append, bind_ok]

/-- What every round keeps, the loop keeps. -/
theorem foldlM_inv {l : List α} {s s' : σ} (P : σ → Prop)
    (step : ∀ x ∈ l, ∀ t t', P t → f t x = .ok t' → P t')
    (h : List.foldlM f s l = .ok s') (h0 : P s) : P s' := by
  induction l generalizing s with
  | nil => cases h; exact h0
  | cons x l ih =>
    obtain ⟨t, ht, hl⟩ := foldlM_cons_ok.1 h
    exact ih (fun y hy => step y (List.mem_cons_of_mem x hy)) hl (step x List.mem_cons_self s t h0 ht)

/-- What every round keeps between its start and its end, the loop keeps. -/
theorem foldlM_rel {l : List α} {s s' : σ} (R : σ → σ → Prop) (refl : ∀ t, R t t)
    (trans : ∀ {a b c}, R a b → R b c → R a c)
    (step : ∀ x ∈ l, ∀ t t', f t x = .ok t' → R t t')
    (h : List.foldlM f s l = .ok s') : R s s' :=
  foldlM_inv (R s) (fun x hx t t' ht he => trans ht (step x hx t t' he)) h (refl s)

/-- The state just before and just after the round for `x`, when `x` comes up once. -/
theorem foldlM_split {l : List α} {s s' : σ} {x : α} (hx : x ∈ l) (hn : l.Nodup)
    (h : List.foldlM f s l = .ok s') :
    ∃ l₁ l₂ t t', l = l₁ ++ x :: l₂ ∧ x ∉ l₁ ∧ x ∉ l₂ ∧ List.foldlM f s l₁ = .ok t ∧ f t x = .ok t' ∧
      List.foldlM f t' l₂ = .ok s' := by
  obtain ⟨l₁, l₂, rfl⟩ := List.append_of_mem hx
  obtain ⟨t, ht, h2⟩ := foldlM_append_ok.1 h
  obtain ⟨t', ht', h3⟩ := foldlM_cons_ok.1 h2
  rw [List.nodup_append] at hn
  exact ⟨l₁, l₂, t, t', rfl, fun hm => hn.2.2 x hm x List.mem_cons_self rfl,
    (List.nodup_cons.1 hn.2.1).1, ht, ht', h3⟩

/-- A loop whose rounds succeed in every state satisfying `P`, and keep `P`, succeeds. -/
theorem foldlM_total {l : List α} {s : σ} (P : σ → Prop)
    (step : ∀ x ∈ l, ∀ t, P t → ∃ t', f t x = .ok t' ∧ P t') (h0 : P s) :
    ∃ s', List.foldlM f s l = .ok s' ∧ P s' := by
  induction l generalizing s with
  | nil => exact ⟨s, rfl, h0⟩
  | cons x l ih =>
    obtain ⟨t, ht, hP⟩ := step x List.mem_cons_self s h0
    obtain ⟨s', hs', hP'⟩ := ih (fun y hy => step y (List.mem_cons_of_mem x hy)) hP
    exact ⟨s', foldlM_cons_ok.2 ⟨t, ht, hs'⟩, hP'⟩

/-- A loop whose rounds succeed, or stop with an error that satisfies `F`, does one of the two. The invariant may
speak of the part still to come. -/
theorem foldlM_decides {l : List α} {s : σ} (P : List α → σ → Prop) (F : ε → Prop)
    (step : ∀ x rest t, x :: rest <:+ l → P (x :: rest) t →
      (∃ t', f t x = .ok t' ∧ P rest t') ∨ ∃ e, f t x = .error e ∧ F e) (h0 : P l s) :
    (∃ s', List.foldlM f s l = .ok s' ∧ P [] s') ∨ ∃ e, List.foldlM f s l = .error e ∧ F e := by
  induction l generalizing s with
  | nil => exact .inl ⟨s, rfl, h0⟩
  | cons x l ih =>
    rcases step x l s (List.suffix_refl _) h0 with ⟨t, ht, hP⟩ | ⟨e, he, hF⟩
    · rw [List.foldlM_cons, ht]
      exact ih (fun y rest t' hy => step y rest t' (hy.trans (List.suffix_cons x l))) hP
    · rw [List.foldlM_cons, he]
      exact .inr ⟨e, rfl, hF⟩

/-- `foldlM_total` with an invariant that may speak of the part still to come. -/
theorem foldlM_total_rest {l : List α} {s : σ} (P : List α → σ → Prop)
    (step : ∀ x rest t, x :: rest <:+ l → P (x :: rest) t → ∃ t', f t x = .ok t' ∧ P rest t') (h0 : P l s) :
    ∃ s', List.foldlM f s l = .ok s' ∧ P [] s' :=
  (foldlM_decides P (fun _ => False) (fun x rest t hy ht => .inl (step x rest t hy ht)) h0).resolve_right
    fun ⟨_, _, hF⟩ => hF

/-- `foldlM_inv` with an invariant that may speak of the part still to come. -/
theorem foldlM_inv_rest {l : List α} {s s' : σ} (P : List α → σ → Prop)
    (step : ∀ x rest t t', x :: rest <:+ l → P (x :: rest) t → f t x = .ok t' → P rest t')
    (h : List.foldlM f s l = .ok s') (h0 : P l s) : P [] s' := by
  induction l generalizing s with
  | nil => cases h; exact h0
  | cons x l ih =>
    obtain ⟨t, ht, hl⟩ := foldlM_cons_ok.1 h
    exact ih (fun y rest t t' hy => step y rest t t' (hy.trans (List.suffix_cons x l))) hl
      (step x l s t (List.suffix_refl _) h0 ht)

/-- A loop whose rounds read and write only their own cell, under an invariant `P` that they keep: each cell is
written by its own round, from what it held before the loop. -/
theorem foldlM_each {β : Type u} {l : List α} {s s' : σ} (get : σ → α → β) (P : σ → Prop) (hn : l.Nodup)
    (step : ∀ x ∈ l, ∀ t t', P t → f t x = .ok t' → P t' ∧ ∀ y, y ≠ x → get t' y = get t y)
    (h : List.foldlM f s l = .ok s') (h0 : P s) :
    P s' ∧ (∀ y, y ∉ l → get s' y = get s y) ∧
      ∀ x ∈ l, ∃ t t', P t ∧ f t x = .ok t' ∧ get t x = get s x ∧ get s' x = get t' x := by
  induction l generalizing s with
  | nil => cases h; exact ⟨h0, fun _ _ => rfl, fun x hx => by cases hx⟩
  | cons x l ih =>
    obtain ⟨t, ht, hl⟩ := foldlM_cons_ok.1 h
    obtain ⟨hx, hn⟩ := List.nodup_cons.1 hn
    obtain ⟨hP, frame⟩ := step x List.mem_cons_self s t h0 ht
    obtain ⟨hP', others, each⟩ := ih hn (fun y hy => step y (List.mem_cons_of_mem x hy)) hl hP
    refine ⟨hP', fun y hy => ?_, fun y hy => ?_⟩
    · rw [List.mem_cons, not_or] at hy
      exact (others y hy.2).trans (frame y hy.1)
    · rcases List.mem_cons.1 hy with rfl | hm
      · exact ⟨s, t, h0, ht, rfl, others y hx⟩
      · obtain ⟨u, u', hu, hf, hg, hg'⟩ := each y hm
        have hyx : y ≠ x := by rintro rfl; exact hx hm
        exact ⟨u, u', hu, hf, hg.trans (frame y hyx), hg'⟩

/-! ## Mapping -/

theorem mapM_forall₂ {α : Type w} {β : Type v} {f : α → Except ε β} {l : List α} {l' : List β} (h : l.mapM f = .ok l') :
    List.Forall₂ (fun a b => f a = .ok b) l l' := by
  induction l generalizing l' with
  | nil => cases h; exact .nil
  | cons x l ih =>
    simp only [List.mapM_cons, bind_ok, pure_ok] at h
    obtain ⟨b, hb, bs, hbs, rfl⟩ := h
    exact .cons hb (ih hbs)

theorem exists_of_forall₂ {α : Type w} {β : Type v} {R : α → β → Prop} {l : List α} {l' : List β}
    (h : List.Forall₂ R l l') {a : α} (ha : a ∈ l) : ∃ b ∈ l', R a b := by
  induction h with
  | nil => cases ha
  | @cons x b l bs hxb _ ih =>
    rcases List.mem_cons.1 ha with rfl | ha
    · exact ⟨b, List.mem_cons_self, hxb⟩
    · obtain ⟨c, hc, hac⟩ := ih ha
      exact ⟨c, List.mem_cons_of_mem b hc, hac⟩

theorem mapM_ok_mem {α : Type w} {β : Type v} {f : α → Except ε β} {l : List α} {l' : List β}
    (h : l.mapM f = .ok l') {a : α}
    (ha : a ∈ l) : ∃ b ∈ l', f a = .ok b :=
  exists_of_forall₂ (mapM_forall₂ h) ha

theorem mapM_ok_of_mem {α : Type w} {β : Type v} {f : α → Except ε β} {l : List α} {l' : List β}
    (h : l.mapM f = .ok l') {b : β} (hb : b ∈ l') : ∃ a ∈ l, f a = .ok b :=
  exists_of_forall₂ (mapM_forall₂ h).flip hb

theorem mapM_total {α : Type w} {β : Type v} {f : α → Except ε β} {l : List α} (h : ∀ x ∈ l, ∃ b, f x = .ok b) :
    ∃ l', l.mapM f = .ok l' := by
  induction l with
  | nil => exact ⟨[], rfl⟩
  | cons x l ih =>
    obtain ⟨b, hb⟩ := h x List.mem_cons_self
    obtain ⟨bs, hbs⟩ := ih fun y hy => h y (List.mem_cons_of_mem x hy)
    exact ⟨b :: bs, by rw [List.mapM_cons, bind_ok]; exact ⟨b, hb, bind_ok.2 ⟨bs, hbs, rfl⟩⟩⟩

/-- What a loop takes from `mapM` through `g` depends on the results only through `g`. -/
theorem mapM_map_congr {α : Type w} {β γ : Type v} {f f' : α → Except ε β} {g : β → γ} {l : List α}
    (h : ∀ x ∈ l, (f x).map g = (f' x).map g) : (l.mapM f).map (List.map g) = (l.mapM f').map (List.map g) := by
  induction l with
  | nil => rfl
  | cons x l ih =>
    have hx := h x List.mem_cons_self
    have hl := ih fun y hy => h y (List.mem_cons_of_mem x hy)
    simp only [List.mapM_cons, bind, Except.bind, pure, Except.pure]
    cases hf : f x with
    | error e =>
      cases hf' : f' x with
      | error e' => rw [hf, hf'] at hx; simpa [Except.map] using hx
      | ok b' => rw [hf, hf'] at hx; simp [Except.map] at hx
    | ok b =>
      cases hf' : f' x with
      | error e' => rw [hf, hf'] at hx; simp [Except.map] at hx
      | ok b' =>
        rw [hf, hf'] at hx
        cases hm : l.mapM f <;> cases hm' : l.mapM f' <;> rw [hm, hm'] at hl <;> simp_all [Except.map]

theorem filterAuxM_ok {α : Type} {p : α → Except ε Bool} {l acc l' : List α}
    (h : List.filterAuxM p l acc = .ok l') {x : α} : x ∈ l' ↔ x ∈ acc ∨ (x ∈ l ∧ p x = .ok true) := by
  induction l generalizing acc with
  | nil => cases h; simp
  | cons y l ih =>
    rw [List.filterAuxM, bind_ok] at h
    obtain ⟨b, hb, h⟩ := h
    rw [ih h]
    cases b with
    | true => simp only [cond_true, List.mem_cons]; grind
    | false => simp only [cond_false, List.mem_cons]; grind

theorem filterM_total {α : Type} {p : α → Except ε Bool} {l : List α} (h : ∀ x ∈ l, ∃ b, p x = .ok b) :
    ∃ l', l.filterM p = .ok l' := by
  have aux : ∀ acc, ∃ l', List.filterAuxM p l acc = .ok l' := by
    induction l with
    | nil => intro acc; exact ⟨acc, rfl⟩
    | cons x l ih =>
      intro acc
      obtain ⟨b, hb⟩ := h x List.mem_cons_self
      obtain ⟨l', hl'⟩ := ih (fun y hy => h y (List.mem_cons_of_mem x hy)) (cond b (x :: acc) acc)
      exact ⟨l', by rw [List.filterAuxM, bind_ok]; exact ⟨b, hb, hl'⟩⟩
  obtain ⟨r, hr⟩ := aux []
  exact ⟨r.reverse, by rw [List.filterM, bind_ok]; exact ⟨r, hr, rfl⟩⟩

/-- A filter keeps what passes its test. -/
theorem filterM_ok {α : Type} {p : α → Except ε Bool} {l l' : List α} (h : l.filterM p = .ok l') {x : α} :
    x ∈ l' ↔ x ∈ l ∧ p x = .ok true := by
  rw [List.filterM, bind_ok] at h
  obtain ⟨r, hr, h⟩ := h
  rw [← pure_ok.1 h, List.mem_reverse, filterAuxM_ok hr]
  simp

/-- A search for an element that passes a test, when every test returns. -/
theorem anyM_total {f : α → Except ε Bool} {l : List α} (h : ∀ x ∈ l, ∃ b, f x = .ok b) :
    ∃ b, l.anyM f = .ok b ∧ (b = true ↔ ∃ x ∈ l, f x = .ok true) := by
  induction l with
  | nil => exact ⟨false, rfl, by simp⟩
  | cons x l ih =>
    obtain ⟨b, hb⟩ := h x List.mem_cons_self
    obtain ⟨c, hc, hiff⟩ := ih fun y hy => h y (List.mem_cons_of_mem x hy)
    cases b with
    | true => exact ⟨true, by rw [List.anyM_cons, hb]; rfl, iff_of_true rfl ⟨x, List.mem_cons_self, hb⟩⟩
    | false =>
      refine ⟨c, by rw [List.anyM_cons, hb]; exact hc, hiff.trans ⟨?_, ?_⟩⟩
      · rintro ⟨y, hy, hyes⟩
        exact ⟨y, List.mem_cons_of_mem x hy, hyes⟩
      · rintro ⟨y, hy, hyes⟩
        rcases List.mem_cons.1 hy with rfl | hy
        · rw [hb] at hyes
          cases hyes
        · exact ⟨y, hy, hyes⟩

/-! ## Mapping with a state -/

section

variable {β : Type w} {τ : Type v} {g : α → τ → Except ε (β × τ)} {s t : τ}

/-- Each element is mapped in turn, from the state that the one before it has left. -/
def mapThrough (g : α → τ → Except ε (β × τ)) : List α → τ → Except ε (List β × τ)
  | [], s => .ok ([], s)
  | x :: l, s => (g x s).bind fun y => (mapThrough g l y.2).map fun ys => (y.1 :: ys.1, ys.2)

theorem mapThrough_cons {x : α} {l : List α} {y : β} (hx : g x s = .ok (y, t)) {ys : List β} {u : τ}
    (hl : mapThrough g l t = .ok (ys, u)) : mapThrough g (x :: l) s = .ok (y :: ys, u) := by
  rw [mapThrough, hx, Except.bind, hl]
  rfl

/-- If each element is read as it was written and leaves the state that writing left, all of them are and do. -/
theorem mapThrough_read {ε' : Type u} {γ δ : Type w} {read : δ → τ → Except ε' (γ × τ)} (via : β → δ) (meaning : α → γ)
    (h : ∀ x s, ∃ y t, g x s = .ok (y, t) ∧ read (via y) s = .ok (meaning x, t)) (l : List α) (s : τ) :
    ∃ ys t, mapThrough g l s = .ok (ys, t) ∧ mapThrough read (ys.map via) s = .ok (l.map meaning, t) := by
  induction l generalizing s with
  | nil => exact ⟨[], s, rfl, rfl⟩
  | cons x l ih =>
    obtain ⟨y, t, hwrite, hread⟩ := h x s
    obtain ⟨ys, u, hwrites, hreads⟩ := ih t
    exact ⟨y :: ys, u, mapThrough_cons hwrite hwrites, mapThrough_cons hread hreads⟩

end

/-- A loop over the numbers from `start` on keeps what speaks of the number it has come to. -/
theorem foldl_range'_inv {σ : Type v} {f : σ → ℕ → σ} {s : σ} (P : ℕ → σ → Prop) {start stop : ℕ} (hle : start ≤ stop)
    (h0 : P start s) (step : ∀ n t, start ≤ n → n < stop → P n t → P (n + 1) (f t n)) :
    P stop ((List.range' start (stop - start)).foldl f s) := by
  obtain ⟨count, rfl⟩ := Nat.exists_eq_add_of_le hle
  rw [Nat.add_sub_cancel_left]
  induction count generalizing start s with
  | zero => exact h0
  | succ count ih =>
    have hsum : start + (count + 1) = start + 1 + count := by omega
    rw [List.range'_succ, List.foldl_cons, hsum]
    exact ih (step start s (Nat.le_refl _) (by omega) h0) (by omega) fun n t hn hlt => step n t (by omega) (by omega)

end Loop
