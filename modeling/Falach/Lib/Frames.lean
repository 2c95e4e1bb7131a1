import Falach.Lib.Wire
/-!
# Authenticated frames

A stream of frames, each with a tag over its number, its length and its bytes, and an empty frame at the end. What can be
read of bytes in which no other tags occur is a beginning of what was written, in whole frames.
-/

universe u

namespace Frames

open Wire

variable {ε : Type u} (tag : Nat → Octets → Octets)

/-- The tag of a frame, its length and its bytes. -/
def frame (i : Nat) (body : Octets) : Octets := tag i (withLen body) ++ withLen body

/-- The frames from the `i`th on, and the empty one. -/
def writeFrames : Nat → List Octets → Octets
  | i, [] => frame tag i []
  | i, body :: bodies => frame tag i body ++ writeFrames (i + 1) bodies

/-- The frames from the `i`th on, up to an empty one or to the end of the bytes. The first argument bounds their
number. -/
def readFrames (tagLen : Nat) (eof : ε) (mismatch : Nat → ε) : Nat → Nat → Octets → Except ε Octets
  | 0, _, _ => .ok []
  | n + 1, i, bytes =>
    if bytes = [] then .ok []
    else
      match splitExact tagLen bytes with
      | none => .error eof
      | some (mac, rest) =>
        match splitExact 4 rest with
        | none => .error eof
        | some (size, rest) =>
          match splitExact (ofLe size) rest with
          | none => .error eof
          | some (body, rest) =>
            if mac ≠ tag i (size ++ body) then .error (mismatch i)
            else if ofLe size = 0 then .ok []
            else (readFrames tagLen eof mismatch n (i + 1) rest).map fun out => body ++ out

variable {tag} {tagLen : Nat} {eof : ε} {mismatch : Nat → ε} {bodies : List Octets} {body rest bytes out : Octets}

/-! ## What was written is read -/

theorem readFrames_frame (hpos : 0 < tagLen) (htag : ∀ i m, (tag i m).length = tagLen) (hlen : body.length < 2 ^ 32)
    (n i : Nat) : readFrames tag tagLen eof mismatch (n + 1) i (frame tag i body ++ rest) =
      if body = [] then .ok [] else (readFrames tag tagLen eof mismatch n (i + 1) rest).map fun out => body ++ out := by
  have hmac := htag i (withLen body)
  have hne : frame tag i body ++ rest ≠ [] := by
    intro h
    have hnil := congrArg List.length h
    simp only [frame, List.length_append, hmac, List.length_nil] at hnil
    omega
  have hsize : ofLe (leBytes 4 body.length) = body.length := ofLe_leBytes hlen
  have hmessage : leBytes 4 body.length ++ body = withLen body := rfl
  rw [readFrames, if_neg hne, frame, List.append_assoc, splitExact_append hmac]
  dsimp only
  rw [withLen, List.append_assoc, splitExact_append (length_leBytes 4 _)]
  dsimp only
  rw [hsize, splitExact_append rfl]
  dsimp only
  rw [hmessage, if_neg (not_not.2 rfl)]
  exact if_congr List.length_eq_zero_iff rfl rfl

/-- What comes after the empty frame is not read. -/
theorem readFrames_writeFrames (hpos : 0 < tagLen) (htag : ∀ i m, (tag i m).length = tagLen)
    (hlen : ∀ body ∈ bodies, body ≠ [] ∧ body.length < 2 ^ 32) {n : Nat} (hn : bodies.length < n) (i : Nat) :
    readFrames tag tagLen eof mismatch n i (writeFrames tag i bodies ++ rest) = .ok bodies.flatten := by
  induction bodies generalizing n i with
  | nil =>
    obtain ⟨n, rfl⟩ := Nat.exists_eq_succ_of_ne_zero (Nat.ne_of_gt hn)
    have hnone : ([] : Octets).length < 2 ^ 32 := Nat.two_pow_pos 32
    rw [writeFrames, Nat.succ_eq_add_one, readFrames_frame hpos htag hnone, if_pos rfl, List.flatten_nil]
  | cons body bodies ih =>
    obtain ⟨n, rfl⟩ := Nat.exists_eq_succ_of_ne_zero (Nat.ne_of_gt (Nat.zero_lt_of_lt hn))
    obtain ⟨⟨hne, hbody⟩, hlen⟩ := List.forall_mem_cons.1 hlen
    rw [writeFrames, List.append_assoc, Nat.succ_eq_add_one, readFrames_frame hpos htag hbody, if_neg hne,
      ih hlen (Nat.lt_of_succ_lt_succ hn), List.flatten_cons]
    rfl

theorem length_bodies_lt (i : Nat) : bodies.length < (writeFrames tag i bodies).length := by
  have hframe (i : Nat) (body : Octets) : 4 ≤ (frame tag i body).length := by
    rw [frame, withLen, List.length_append, List.length_append, length_leBytes]
    omega
  induction bodies generalizing i with
  | nil => exact Nat.lt_of_lt_of_le (by decide) (hframe i [])
  | cons body bodies ih =>
    have hbody := hframe i body
    have htail := ih (i + 1)
    rw [writeFrames, List.length_append, List.length_cons]
    omega

/-- The bytes of a frame are part of the stream. -/
theorem length_body_le (i : Nat) (hbody : body ∈ bodies) : body.length ≤ (writeFrames tag i bodies).length := by
  induction bodies generalizing i with
  | nil => cases hbody
  | cons b bodies ih =>
    rw [writeFrames, List.length_append]
    rcases List.mem_cons.1 hbody with rfl | hbody
    · rw [frame, withLen, List.length_append, List.length_append]
      omega
    · have htail := ih (i + 1) hbody
      omega

/-! ## Nothing else is read -/

/-- No tags for the numbers of the stream occur in the bytes but those of its frames. -/
def OnlyTags (tag : Nat → Octets → Octets) (bodies : List Octets) (bytes : Octets) : Prop :=
  ∀ i m, i ≤ bodies.length → tag i m <:+: bytes → ((bodies ++ [[]])[i]?).map withLen = some m

theorem OnlyTags.of_suffix (h : OnlyTags tag bodies bytes) (hsuffix : rest <:+ bytes) : OnlyTags tag bodies rest :=
  fun i m hi hm => h i m hi (hm.trans hsuffix.isInfix)

/-- A frame that is read is one of the stream. -/
theorem OnlyTags.body_eq (h : OnlyTags tag bodies bytes) {i : Nat} (hi : i ≤ bodies.length) {size : Octets}
    (hsize : size.length = 4) (hin : tag i (size ++ body) <:+: bytes) : (bodies ++ [[]])[i]? = some body := by
  obtain ⟨b, hb, hmessage⟩ := Option.map_eq_some_iff.1 (h i _ hi hin)
  have hparts := List.append_inj hmessage (by rw [length_leBytes, hsize])
  rw [hb, ← hparts.2]

theorem readFrames_prefix {n i : Nat} (hi : i ≤ bodies.length) (honly : OnlyTags tag bodies bytes)
    (h : readFrames tag tagLen eof mismatch n i bytes = .ok out) :
    ∃ k, out = ((bodies.drop i).take k).flatten := by
  induction n generalizing i bytes out with
  | zero =>
    cases h
    exact ⟨0, rfl⟩
  | succ n ih =>
    rw [readFrames] at h
    split at h
    · cases h
      exact ⟨0, rfl⟩
    split at h
    · cases h
    rename_i mac afterMac hmac
    split at h
    · cases h
    rename_i size afterSize hsize
    split at h
    · cases h
    rename_i body rest hbody
    obtain ⟨rfl, -⟩ := splitExact_eq_some_iff.1 hmac
    obtain ⟨rfl, hsizeLen⟩ := splitExact_eq_some_iff.1 hsize
    obtain ⟨rfl, hbodyLen⟩ := splitExact_eq_some_iff.1 hbody
    split at h
    · cases h
    rename_i heq
    rw [not_not] at heq
    split at h
    · cases h
      exact ⟨0, rfl⟩
    rename_i hne
    have hin : tag i (size ++ body) <:+: mac ++ (size ++ (body ++ rest)) := heq ▸ (List.prefix_append _ _).isInfix
    have hget := honly.body_eq hi hsizeLen hin
    -- the empty frame is not this one
    have hlt : i < bodies.length := by
      refine lt_of_le_of_ne hi fun hend => ?_
      rw [hend, List.getElem?_append_right (Nat.le_refl _), Nat.sub_self] at hget
      obtain rfl := Option.some.inj hget
      exact hne hbodyLen.symm
    rw [List.getElem?_append_left hlt] at hget
    have hsuffix : rest <:+ mac ++ (size ++ (body ++ rest)) :=
      (List.suffix_append body rest).trans ((List.suffix_append size _).trans (List.suffix_append mac _))
    obtain ⟨out', hout', rfl⟩ : ∃ out', readFrames tag tagLen eof mismatch n (i + 1) rest = .ok out' ∧
        body ++ out' = out := by
      cases hread : readFrames tag tagLen eof mismatch n (i + 1) rest with
      | error e =>
        rw [hread] at h
        cases h
      | ok out' =>
        rw [hread] at h
        exact ⟨out', rfl, Except.ok.inj h⟩
    obtain ⟨k, rfl⟩ := ih hlt (honly.of_suffix hsuffix) hout'
    refine ⟨k + 1, ?_⟩
    rw [List.drop_eq_getElem_cons hlt, List.take_succ_cons, List.flatten_cons,
      Option.some.inj ((List.getElem?_eq_getElem hlt).symm.trans hget)]

end Frames
