import Falach.Keepass.Database
import Falach.Lib.Sampling
/-!
# The byte cursor

Passwords and passphrases are made of bytes that are given. The cursor takes four of them for each draw, and draws again
until one is taken.
-/

namespace Falach

open Keepass

/-- `getrandom::Error`. -/
inductive GetrandomError where
  | unexpected
  | os (code : Nat)
deriving DecidableEq

inductive GenError where
  | invalidLength
  | noClassesEnabled
  | lengthTooShort (length classes : Nat)
  | alphabetEmpty
  | invalidWordCount
  | csprng (source : GetrandomError)
deriving DecidableEq

/-- What ends a generation: an error that is returned, or a panic. -/
inductive Stop where
  | error (e : GenError)
  | panic
deriving DecidableEq

/-- `ByteCursor`, as the bytes it has not passed. The indices it has returned and the draws it has rejected are kept for
what is to be said about them: nothing reads them. -/
structure ByteCursor where
  rest : Bytes
  accepted : List Nat := []
  rejected : Nat := 0

/-- What draws from the cursor. -/
abbrev Gen (α : Type) := EStateM Stop ByteCursor α

def u32Max : Nat := 2 ^ 32 - 1
def bytesPerDraw : Nat := 4

def fromLeBytes (a b c d : UInt8) : Nat := a.toNat + 2 ^ 8 * b.toNat + 2 ^ 16 * c.toNat + 2 ^ 24 * d.toNat

def exhausted : Stop := .error (.csprng .unexpected)

namespace ByteCursor

def new (bytes : Bytes) : ByteCursor := { rest := bytes }

/-- `next_u32`. -/
def nextU32 : Gen Nat := fun s =>
  match s.rest with
  | a :: b :: c :: d :: rest => .ok (fromLeBytes a b c d) { s with rest := rest }
  | _ => .error exhausted s

/-- A draw that is taken. -/
def accept (index : Nat) : Gen Nat := fun s => .ok index { s with accepted := s.accepted ++ [index] }

/-- A draw that is not. -/
def reject : Gen Unit := fun s => .ok () { s with rejected := s.rejected + 1 }

/-- The loop of `uniform_index`, over the bytes that are left. -/
def drawFrom (range threshold : Nat) : Bytes → ByteCursor → EStateM.Result Stop ByteCursor Nat
  | a :: b :: c :: d :: rest, s =>
    let v := fromLeBytes a b c d
    if v < threshold then accept (v % range) { s with rest := rest }
    else drawFrom range threshold rest { s with rest := rest, rejected := s.rejected + 1 }
  | _, s => .error exhausted s

def draw (range threshold : Nat) : Gen Nat := fun s => drawFrom range threshold s.rest s

/-- `uniform_index`. -/
def uniformIndex (range : Nat) : Gen Nat :=
  if range = 0 then throw .panic
  else if u32Max < range then throw .panic
  else draw range (u32Max - u32Max % range)

/-- It is the loop of the source: draw, and return or draw again. -/
theorem draw_eq (range threshold : Nat) : draw range threshold = (nextU32 >>= fun v =>
    if v < threshold then accept (v % range) else reject >>= fun _ => draw range threshold) := by
  funext s
  obtain ⟨rest, accepted, rejected⟩ := s
  rcases rest with - | ⟨a, - | ⟨b, - | ⟨c, - | ⟨d, rest⟩⟩⟩⟩
  case cons.cons.cons.cons =>
    change drawFrom range threshold (a :: b :: c :: d :: rest) _ =
      (if fromLeBytes a b c d < threshold then accept (fromLeBytes a b c d % range)
        else reject >>= fun _ => draw range threshold) ⟨rest, accepted, rejected⟩
    unfold drawFrom
    dsimp only
    split <;> rfl
  all_goals rfl

/-! ## What a generator draws -/

/-- From `s` to `t` these indices were drawn, and four bytes went for each and for every draw that was rejected. -/
structure Drawn (s t : ByteCursor) (draws : List Nat) : Prop where
  accepted : t.accepted = s.accepted ++ draws
  spent : t.rest.length + bytesPerDraw * (draws.length + t.rejected) = s.rest.length + bytesPerDraw * s.rejected

theorem Drawn.refl (s : ByteCursor) : Drawn s s [] := ⟨(List.append_nil _).symm, by simp⟩

theorem Drawn.trans {s t u : ByteCursor} {ds es : List Nat} (h : Drawn s t ds) (h' : Drawn t u es) :
    Drawn s u (ds ++ es) := by
  refine ⟨by rw [h'.accepted, h.accepted, List.append_assoc], ?_⟩
  have := h.spent
  have := h'.spent
  rw [List.length_append]
  unfold bytesPerDraw at *
  omega

end ByteCursor

open ByteCursor

/-- The generator draws `n` indices, which `P` relates to its result; or the bytes are used up before. -/
def Draws {α : Type} (n : Nat) (P : α → List Nat → Prop) (m : Gen α) : Prop := ∀ s,
  (∃ a t draws, m s = .ok a t ∧ Drawn s t draws ∧ draws.length = n ∧ P a draws) ∨
  (∃ t draws, m s = .error exhausted t ∧ Drawn s t draws ∧ draws.length < n ∧ t.rest.length < bytesPerDraw)

namespace Draws

variable {α β : Type} {n k : Nat} {P P' : α → List Nat → Prop} {Q : β → List Nat → Prop} {m : Gen α} {f : α → Gen β}
  {m' : Gen Nat}

theorem pure {a : α} (h : P a []) : Draws 0 P (pure a) := fun s => .inl ⟨a, s, [], rfl, .refl s, rfl, h⟩

theorem bind (h : Draws n P m) (hf : ∀ a ds, P a ds → ds.length = n → Draws k (fun b es => Q b (ds ++ es)) (f a)) :
    Draws (n + k) Q (m >>= f) := by
  intro s
  change (∃ b t ds, EStateM.bind m f s = .ok b t ∧ _) ∨ ∃ t ds, EStateM.bind m f s = .error exhausted t ∧ _
  unfold EStateM.bind
  rcases h s with ⟨a, t, ds, hm, hdrawn, hlen, hP⟩ | ⟨t, ds, hm, hdrawn, hlt, hrest⟩
  · rw [hm]
    rcases hf a ds hP hlen t with ⟨b, u, es, hb, hdrawn', hlen', hQ⟩ | ⟨u, es, hu, hdrawn', hlt', hrest⟩
    · exact .inl ⟨b, u, ds ++ es, hb, hdrawn.trans hdrawn', by rw [List.length_append, hlen, hlen'], hQ⟩
    · refine .inr ⟨u, ds ++ es, hu, hdrawn.trans hdrawn', ?_, hrest⟩
      rw [List.length_append, hlen]
      exact Nat.add_lt_add_left hlt' n
  · rw [hm]
    exact .inr ⟨t, ds, rfl, hdrawn, by omega, hrest⟩

/-- What draws nothing only computes. -/
theorem bind_zero (h : Draws 0 P m) (hf : ∀ a, P a [] → Draws k Q (f a)) : Draws k Q (m >>= f) := by
  rw [← Nat.zero_add k]
  refine h.bind fun a ds hP hlen => ?_
  obtain rfl := List.length_eq_zero_iff.1 hlen
  exact hf a hP

/-- One index, and what is done with it. -/
theorem bind_one {range : Nat} {f : Nat → Gen β} (h : Draws 1 (fun index ds => ds = [index] ∧ index < range) m')
    (hf : ∀ index, index < range → Draws k (fun b es => Q b (index :: es)) (f index)) : Draws (k + 1) Q (m' >>= f) := by
  rw [Nat.add_comm]
  refine h.bind ?_
  rintro index _ ⟨rfl, hlt⟩ -
  exact hf index hlt

theorem mono (h : Draws n P m) (hP : ∀ a ds, P a ds → ds.length = n → P' a ds) : Draws n P' m := by
  intro s
  rcases h s with ⟨a, t, ds, hm, hdrawn, hlen, hPa⟩ | hshort
  · exact .inl ⟨a, t, ds, hm, hdrawn, hlen, hP a ds hPa hlen⟩
  · exact .inr hshort

/-- Fewer bytes than were left are used up only by draws that were rejected. -/
theorem rejected (h : Draws n P m) {bytes : Bytes} {spare : Nat} (hsize : bytes.length = bytesPerDraw * (n + spare))
    {t : ByteCursor} (hm : m (new bytes) = .error exhausted t) : spare < t.rejected := by
  rcases h (new bytes) with ⟨a, u, ds, hu, -⟩ | ⟨u, ds, hu, hdrawn, hlt, hrest⟩
  · rw [hm] at hu
    cases hu
  · rw [hm] at hu
    cases hu
    have hspent := hdrawn.spent
    change _ = bytes.length + bytesPerDraw * 0 at hspent
    unfold bytesPerDraw at *
    omega

end Draws

/-! ## One index -/

namespace ByteCursor

variable {range threshold : Nat}

theorem drawFrom_short {rest : Bytes} (h : rest.length < bytesPerDraw) (s : ByteCursor) :
    drawFrom range threshold rest s = .error exhausted s := by
  rcases rest with - | ⟨a, - | ⟨b, - | ⟨c, - | ⟨d, rest⟩⟩⟩⟩
  case cons.cons.cons.cons =>
    simp only [List.length_cons, bytesPerDraw] at h
    omega
  all_goals rfl

/-- The loop ends with an index in range, or the bytes are used up. -/
theorem drawFrom_spec (hpos : 0 < range) (rest : Bytes) (s : ByteCursor) (hs : s.rest = rest) :
    (∃ index t, drawFrom range threshold rest s = .ok index t ∧ Drawn s t [index] ∧ index < range) ∨
    ∃ t, drawFrom range threshold rest s = .error exhausted t ∧ Drawn s t [] ∧ t.rest.length < bytesPerDraw := by
  induction hlen : rest.length using Nat.strong_induction_on generalizing rest s with
  | _ n ih =>
    by_cases hshort : rest.length < bytesPerDraw
    · exact .inr ⟨s, drawFrom_short hshort s, .refl s, hs ▸ hshort⟩
    rcases rest with - | ⟨a, - | ⟨b, - | ⟨c, - | ⟨d, rest⟩⟩⟩⟩
    case cons.cons.cons.cons =>
      unfold drawFrom
      dsimp only
      split
      · refine .inl ⟨_, _, rfl, ⟨rfl, ?_⟩, Nat.mod_lt _ hpos⟩
        rw [hs]
        simp only [List.length_cons, List.length_nil, bytesPerDraw]
        omega
      · have hless : rest.length < n := by
          rw [← hlen]
          simp only [List.length_cons]
          omega
        have rejected : Drawn s { s with rest := rest, rejected := s.rejected + 1 } [] := by
          refine ⟨(List.append_nil _).symm, ?_⟩
          rw [hs]
          simp only [List.length_cons, List.length_nil, bytesPerDraw]
          omega
        rcases ih rest.length hless rest { s with rest := rest, rejected := s.rejected + 1 } rfl rfl with
          ⟨index, t, ht, hdrawn, hlt⟩ | ⟨t, ht, hdrawn, hrest⟩
        · exact .inl ⟨index, t, ht, rejected.trans hdrawn, hlt⟩
        · exact .inr ⟨t, ht, rejected.trans hdrawn, hrest⟩
    all_goals exact absurd (by simp [bytesPerDraw]) hshort

theorem uniformIndex_eq (hpos : 0 < range) (hle : range ≤ u32Max) :
    uniformIndex range = draw range (Rejection.threshold u32Max range) := by
  unfold uniformIndex
  rw [if_neg hpos.ne', if_neg (Nat.not_lt.2 hle)]
  rfl

theorem uniformIndex_draws (hpos : 0 < range) (hle : range ≤ u32Max) :
    Draws 1 (fun index draws => draws = [index] ∧ index < range) (uniformIndex range) := by
  intro s
  rw [uniformIndex_eq hpos hle]
  rcases drawFrom_spec hpos s.rest s rfl with ⟨index, t, ht, hdrawn, hlt⟩ | ⟨t, ht, hdrawn, hrest⟩
  · exact .inl ⟨index, t, [index], ht, hdrawn, rfl, rfl, hlt⟩
  · exact .inr ⟨t, [], ht, hdrawn, Nat.zero_lt_one, hrest⟩

/-! ## Which draws make it -/

/-- `u32::to_le_bytes`. -/
def toLeBytes (v : Nat) : Bytes :=
  [UInt8.ofNat v, UInt8.ofNat (v / 2 ^ 8), UInt8.ofNat (v / 2 ^ 16), UInt8.ofNat (v / 2 ^ 24)]

theorem fromLeBytes_toLeBytes {v : Nat} (h : v ≤ u32Max) : fromLeBytes (UInt8.ofNat v) (UInt8.ofNat (v / 2 ^ 8))
    (UInt8.ofNat (v / 2 ^ 16)) (UInt8.ofNat (v / 2 ^ 24)) = v := by
  unfold fromLeBytes
  simp only [UInt8.toNat_ofNat']
  unfold u32Max at h
  omega

/-- The four bytes of a draw are those of one `u32`, and of no other. -/
theorem toLeBytes_fromLeBytes (a b c d : UInt8) :
    fromLeBytes a b c d ≤ u32Max ∧ toLeBytes (fromLeBytes a b c d) = [a, b, c, d] := by
  have ha := a.toNat_lt
  have hb := b.toNat_lt
  have hc := c.toNat_lt
  have hd := d.toNat_lt
  refine ⟨by unfold fromLeBytes u32Max; omega, ?_⟩
  unfold toLeBytes fromLeBytes
  congr 1
  · exact UInt8.toNat_inj.1 (by rw [UInt8.toNat_ofNat']; omega)
  congr 1
  · exact UInt8.toNat_inj.1 (by rw [UInt8.toNat_ofNat']; omega)
  congr 1
  · exact UInt8.toNat_inj.1 (by rw [UInt8.toNat_ofNat']; omega)
  congr 1
  exact UInt8.toNat_inj.1 (by rw [UInt8.toNat_ofNat']; omega)

/-- The index that `uniform_index` makes of one draw, unless it rejects it. -/
def indexOf (range v : Nat) : Option Nat :=
  match uniformIndex range (new (toLeBytes v)) with
  | .ok index _ => some index
  | .error _ _ => none

/-- With more bytes to come, a draw that makes an index ends the loop, and after another it goes on. -/
theorem uniformIndex_append (hpos : 0 < range) (hle : range ≤ u32Max) {v : Nat} (hv : v ≤ u32Max) (s : ByteCursor)
    (rest : Bytes) (hs : s.rest = toLeBytes v ++ rest) : uniformIndex range s =
      if v < Rejection.threshold u32Max range then
        .ok (v % range) { s with rest := rest, accepted := s.accepted ++ [v % range] }
      else uniformIndex range { s with rest := rest, rejected := s.rejected + 1 } := by
  rw [uniformIndex_eq hpos hle]
  change drawFrom range _ s.rest s = _
  rw [hs]
  change (if fromLeBytes _ _ _ _ < _ then accept _ _ else _) = _
  rw [fromLeBytes_toLeBytes hv]
  rfl

theorem indexOf_eq (hpos : 0 < range) (hle : range ≤ u32Max) {v : Nat} (hv : v ≤ u32Max) :
    indexOf range v = if v < Rejection.threshold u32Max range then some (v % range) else none := by
  unfold indexOf
  rw [uniformIndex_append hpos hle hv (new (toLeBytes v)) [] (List.append_nil _).symm]
  by_cases h : v < Rejection.threshold u32Max range
  · rw [if_pos h, if_pos h]
  · rw [if_neg h, if_neg h, uniformIndex_eq hpos hle]
    rfl

/-- Every index is made by as many draws, and the others are rejected. -/
theorem card_indexOf (hpos : 0 < range) (hle : range ≤ u32Max) :
    (∀ index < range, ((Finset.range (2 ^ 32)).filter fun v => indexOf range v = some index).card = u32Max / range) ∧
    ((Finset.range (2 ^ 32)).filter fun v => indexOf range v = none).card = 2 ^ 32 - range * (u32Max / range) := by
  have hmax : 2 ^ 32 = u32Max + 1 := rfl
  have hle' : ∀ v ∈ Finset.range (u32Max + 1), v ≤ u32Max := fun v hv => Nat.le_of_lt_succ (Finset.mem_range.1 hv)
  rw [hmax]
  refine ⟨fun index hindex => ?_, ?_⟩
  · refine (congrArg Finset.card (Finset.filter_congr fun v hv => ?_)).trans (Rejection.card_taken hindex)
    rw [indexOf_eq hpos hle (hle' v hv), Option.ite_none_right_eq_some, Option.some.injEq]
  · refine (congrArg Finset.card (Finset.filter_congr fun v hv => ?_)).trans (Rejection.card_rejected u32Max range)
    rw [indexOf_eq hpos hle (hle' v hv)]
    by_cases h : v < Rejection.threshold u32Max range
    · rw [if_pos h]
      exact iff_of_false (by simp) (not_not.2 h)
    · rw [if_neg h]
      exact iff_of_true rfl h

end ByteCursor

end Falach
