import Falach.S3.SignedPath
/-!
# The grammar of endpoints

Which endpoints are accepted: a scheme, a host or a bracketed address, and a port. The parser is laxer than this in
two places: it takes a name with brackets in it, and a port with a plus sign.
-/

namespace Falach

/-! ## The grammar -/

namespace Authority

/-- A number in digits only, up to 65535. -/
structure Digits (s : Text) : Prop where
  ne_nil : s ≠ []
  digits : ∀ c ∈ s, c.isDigit = true
  small : Address.decimal s ≤ 65535

/-- What is written after the host. -/
inductive Port : Text → Prop
  | none : Port []
  | number {s : Text} (h : Digits s) : Port (':' :: s)

/-- No white space, and none of the characters that end a host. -/
def hostChar (c : Char) : Bool := !Text.isWhitespace c && c ∉ [':', '@', '/', '?', '#']

inductive Host : Text → Prop
  | name {s : Text} (hne : s ≠ []) (hchars : ∀ c ∈ s, hostChar c = true ∧ c ≠ '[' ∧ c ≠ ']') : Host s
  | ipv6 {s : Text} (h : Address.isIpv6 s = true) : Host ('[' :: (s ++ [']']))

/-- The endpoint is written with this scheme, in any case, this host and this port. -/
def Written (endpoint scheme host port : Text) : Prop :=
  (Text.lower scheme = "https".toList ∨ Text.lower scheme = "http".toList) ∧
    ∃ slashes, endpoint = scheme ++ "://".toList ++ (host ++ port ++ List.replicate slashes '/')

def Grammar (endpoint : Text) : Prop := ∃ scheme host port, Written endpoint scheme host port ∧ Host host ∧ Port port

/-! What is accepted beyond it. -/

/-- A name with a bracket that is not at its start. -/
structure BracketName (s : Text) : Prop where
  start : s.head? ≠ some '['
  chars : ∀ c ∈ s, hostChar c = true
  bracket : '[' ∈ s ∨ ']' ∈ s

inductive SignedPort : Text → Prop
  | number {s : Text} (h : Digits s) : SignedPort (':' :: '+' :: s)

/-- The endpoint would be of the grammar but for brackets in its name or the sign of its port. -/
def Lax (endpoint : Text) : Prop := ∃ scheme host port, Written endpoint scheme host port ∧
  (Host host ∨ BracketName host) ∧ (Port port ∨ SignedPort port) ∧ (BracketName host ∨ SignedPort port)

/-! ## The characters of an address -/

def addressChar (c : Char) : Bool := Address.isHexDigit c || c = ':' || c = '.'

/-- None of these ends a host, and none is a bracket. -/
theorem addressChar_plain {c : Char} (h : addressChar c = true) :
    Text.isWhitespace c = false ∧ c ∉ ['@', '/', '?', '#', '[', ']'] := by
  have hlt : c.toNat < 128 := by
    simp only [addressChar, Bool.or_eq_true, decide_eq_true_eq] at h
    rcases h with (h | rfl) | rfl
    · exact Address.isHexDigit_lt h
    · decide
    · decide
  have hall : ((List.range 128).all fun n => !addressChar (Char.ofNat n) ||
      (!Text.isWhitespace (Char.ofNat n) && Char.ofNat n ∉ ['@', '/', '?', '#', '[', ']'])) = true := by decide +kernel
  have hc := List.all_eq_true.1 hall c.toNat (List.mem_range.2 hlt)
  rw [Char.ofNat_toNat, h] at hc
  simpa using hc

/-- The text is read from the start, over characters of an address. -/
def Reads (s rest : Text) : Prop := ∃ start, s = start ++ rest ∧ ∀ c ∈ start, addressChar c = true

variable {s rest : Text}

theorem Reads.refl (s : Text) : Reads s s := ⟨[], rfl, fun _ hc => absurd hc List.not_mem_nil⟩

theorem Reads.trans {m : Text} (h : Reads s m) (h' : Reads m rest) : Reads s rest := by
  obtain ⟨start, rfl, hstart⟩ := h
  obtain ⟨start', rfl, hstart'⟩ := h'
  refine ⟨start ++ start', (List.append_assoc ..).symm, fun c hc => ?_⟩
  exact (List.mem_append.1 hc).elim (hstart c) (hstart' c)

theorem reads_takeWhile {p : Char → Bool} (hp : ∀ c, p c = true → addressChar c = true) (s : Text) :
    Reads s (s.drop (s.takeWhile p).length) := by
  have hwhole := List.prefix_iff_eq_append.1 (List.takeWhile_prefix (l := s) p)
  exact ⟨s.takeWhile p, hwhole.symm, fun c hc => hp c (List.mem_takeWhile_imp hc)⟩

theorem reads_hexGroup (h : Address.hexGroup s = some rest) : Reads s rest := by
  unfold Address.hexGroup at h
  obtain ⟨-, hrest⟩ := Option.ite_none_left_eq_some.1 h
  cases hrest
  exact reads_takeWhile (fun c hc => by simp [addressChar, hc]) s

theorem reads_decimalByte (h : Address.decimalByte s = some rest) : Reads s rest := by
  unfold Address.decimalByte at h
  obtain ⟨-, hrest⟩ := Option.ite_none_left_eq_some.1 h
  cases hrest
  exact reads_takeWhile (fun c hc => by simp [addressChar, Address.isHexDigit, hc]) s

theorem reads_separated {separator : Char} {index : Nat} {inner : Text → Option Text}
    (hseparator : addressChar separator = true)
    (hinner : ∀ s rest, inner s = some rest →
      Reads s rest) (h : Address.separated separator index inner s = some rest) :
    Reads s rest := by
  unfold Address.separated at h
  split at h
  · exact hinner s rest h
  · split at h
    · obtain ⟨rfl, hread⟩ := Option.ite_none_right_eq_some.1 h
      obtain ⟨start, rfl, hstart⟩ := hinner _ rest hread
      exact ⟨_ :: start, rfl, List.forall_mem_cons.2 ⟨hseparator, hstart⟩⟩
    · cases h

theorem reads_ipv4 (h : Address.ipv4 s = some rest) : Reads s rest := by
  have part {index : Nat} {s rest : Text} (h : Address.separated '.' index Address.decimalByte s = some rest) :
    Reads s rest :=
    reads_separated (by decide) (fun _ _ => reads_decimalByte) h
  obtain ⟨s₁, h₁, h⟩ := Option.bind_eq_some_iff.1 h
  obtain ⟨s₂, h₂, h⟩ := Option.bind_eq_some_iff.1 h
  obtain ⟨s₃, h₃, h⟩ := Option.bind_eq_some_iff.1 h
  exact (part h₁).trans ((part h₂).trans ((part h₃).trans (part h)))

theorem reads_groups (limit left : Nat) (s : Text) : Reads s (Address.readGroups limit left s).2.2 := by
  induction left generalizing s with
  | zero => exact Reads.refl s
  | succ left ih =>
    rw [Address.readGroups]
    split
    · rename_i hipv4
      obtain ⟨-, hipv4⟩ := Option.ite_none_right_eq_some.1 hipv4
      exact reads_separated (by decide) (fun _ _ => reads_ipv4) hipv4
    · split
      · rename_i hgroup
        exact (reads_separated (by decide) (fun _ _ => reads_hexGroup) hgroup).trans (ih _)
      · exact Reads.refl s

theorem addressChar_of_isIpv6 (h : Address.isIpv6 s = true) : ∀ c ∈ s, addressChar c = true := by
  have whole {s : Text} (h : Reads s []) : ∀ c ∈ s, addressChar c = true := by
    obtain ⟨start, rfl, hstart⟩ := h
    rwa [List.append_nil]
  have head := reads_groups 8 8 s
  unfold Address.isIpv6 at h
  generalize Address.readGroups 8 8 s = read at h head
  obtain ⟨size, ipv4, rest⟩ := read
  dsimp only at h head
  split at h
  · exact whole (of_decide_eq_true h ▸ head)
  · split at h
    · cases h
    · split at h
      · rename_i tail
        have hcolons : Reads (':' :: ':' :: tail) tail := ⟨[':', ':'], rfl, Text.forall_of_all (by decide +kernel)⟩
        exact whole (of_decide_eq_true h ▸ head.trans (hcolons.trans (reads_groups _ _ tail)))
      · cases h

/-! ## Hosts and ports -/

def portText (port : Option Text) : Text := port.elim [] fun s => ':' :: s

theorem isU16_iff : Address.isU16 s = true ↔ Digits s ∨ ∃ d, s = '+' :: d ∧ Digits d := by
  have digits_iff {d : Text} : (d ≠ [] ∧ d.all Char.isDigit ∧ Address.decimal d < 2 ^ 16) ↔ Digits d := by
    rw [List.all_eq_true]
    exact ⟨fun ⟨hne, hdigits, hsmall⟩ => ⟨hne, hdigits, Nat.le_of_lt_succ hsmall⟩, fun h =>
      ⟨h.ne_nil, h.digits, Nat.lt_succ_of_le h.small⟩⟩
  unfold Address.isU16
  rw [decide_eq_true_eq]
  split
  · rename_i d
    rw [digits_iff]
    constructor
    · exact fun h => .inr ⟨d, rfl, h⟩
    · rintro (h | ⟨d', hd, h⟩)
      · exact absurd (h.digits '+' List.mem_cons_self) (by decide)
      · cases hd
        exact h
  · rename_i hsign
    rw [digits_iff]
    constructor
    · exact .inl
    · rintro (h | ⟨d, hd, -⟩)
      · exact h
      · exact absurd hd (hsign d)

/-- A port is accepted if it is a number, with a sign or without. -/
theorem port_iff {port : Text} : Port port ∨ SignedPort port ↔ ∃ p, port = portText p ∧ ∀ n ∈ p,
    Address.isU16 n = true := by
  constructor
  · rintro (h | h)
    · cases h with
      | none => exact ⟨none, rfl, fun n hn => by cases hn⟩
      | number h =>
        refine ⟨some _, rfl, fun n hn => ?_⟩
        cases hn
        exact isU16_iff.2 (.inl h)
    · cases h with
      | number h =>
        refine ⟨some _, rfl, fun n hn => ?_⟩
        cases hn
        exact isU16_iff.2 (.inr ⟨_, rfl, h⟩)
  · rintro ⟨p, rfl, hp⟩
    cases p with
    | none => exact .inl .none
    | some n =>
      rcases isU16_iff.1 (hp n rfl) with h | ⟨d, rfl, h⟩
      · exact .inl (.number h)
      · exact .inr (.number h)

/-- A host is accepted if it is a bracketed address, or a name that does not look like one. -/
theorem host_iff {host : Text} : Host host ∨ BracketName host ↔
    (∃ a, host = '[' :: (a ++ [']']) ∧ Address.isIpv6 a = true) ∨
      (host ≠ [] ∧ host.head? ≠ some '[' ∧ ∀ c ∈ host, hostChar c = true) := by
  constructor
  · rintro (h | h)
    · cases h with
      | name hne hchars =>
        refine .inr ⟨hne, fun hhead => ?_, fun c hc => (hchars c hc).1⟩
        exact (hchars '[' (List.mem_of_head? hhead)).2.1 rfl
      | ipv6 h => exact .inl ⟨_, rfl, h⟩
    · refine .inr ⟨?_, h.start, h.chars⟩
      rintro rfl
      rcases h.bracket with h | h
      · cases h
      · cases h
  · rintro (⟨a, rfl, h⟩ | ⟨hne, hhead, hchars⟩)
    · exact .inl (.ipv6 h)
    · -- only the brackets tell a name of the grammar from one that is let through
      by_cases hbracket : '[' ∈ host ∨ ']' ∈ host
      · exact .inr ⟨hhead, hchars, hbracket⟩
      · rw [not_or] at hbracket
        refine .inl (.name hne fun c hc => ⟨hchars c hc, ?_, ?_⟩)
        · rintro rfl
          exact hbracket.1 hc
        · rintro rfl
          exact hbracket.2 hc

/-! ## What is accepted -/

theorem portOf_ipv6 {a : Text} (h : Address.isIpv6 a = true) (p : Option Text) :
    portOf ('[' :: (a ++ [']']) ++ portText p) = .ok p := by
  have hclose : ']' ∉ a := fun hc => by simpa using (addressChar_plain (addressChar_of_isIpv6 h _ hc)).2
  have hne : a ≠ [] := by
    rintro rfl
    exact absurd h (by decide)
  have hsplit : Text.splitOnce [']'] (a ++ ']' :: portText p) = some (a,
    portText p) := Text.splitOnce_append_cons hclose
  rw [List.cons_append, List.append_assoc, List.singleton_append, portOf, hsplit]
  dsimp only
  rw [if_neg (by simp [hne, h])]
  cases p <;> rfl

theorem portOf_name {host : Text} (hne : host ≠ [])
    (hhead : host.head? ≠ some '[') (hcolon : ':' ∉ host) {p : Option Text}
    (hp : ∀ n ∈ p, ':' ∉ n) : portOf (host ++ portText p) = .ok p := by
  have hsplit : Text.rsplitOnce ':' (host ++ portText p) = p.map fun n => (host, n) := by
    cases p with
    | none =>
      rw [portText, Option.elim_none, List.append_nil, Option.map_none]
      exact Text.rsplitOnce_of_notMem hcolon
    | some n => exact Text.rsplitOnce_append_cons (hp n rfl)
  obtain ⟨c, host, rfl⟩ := List.exists_cons_of_ne_nil hne
  have hc : c ≠ '[' := fun hc => hhead (congrArg some hc)
  have hother : ∀ bracketed, c :: (host ++ portText p) ≠ '[' :: bracketed := fun bracketed h =>
    hc (List.head_eq_of_cons_eq h)
  rw [List.cons_append, portOf, ← List.cons_append, hsplit]
  · cases p with
    | none => rfl
    | some n =>
      rw [Option.map_some]
      exact if_neg (by simpa using hcolon)
  · exact hother

theorem portOf_cases {a : Text} {p : Option Text} (h : portOf a = .ok p) : ∃ host, a = host ++ portText p ∧
    ((∃ s, host = '[' :: (s ++ [']']) ∧ Address.isIpv6 s = true) ∨
      (host ≠ [] ∧ host.head? ≠ some '[' ∧ ':' ∉ host)) := by
  unfold portOf at h
  split at h
  · -- a bracketed address, and what follows it is nothing or a port
    rename_i bracketed
    split at h
    · cases h
    · rename_i s remainder hsplit
      obtain rfl : bracketed = s ++ ']' :: remainder := by simpa using Text.splitOnce_eq hsplit
      split at h
      · cases h
      · rename_i haddress
        have hs : Address.isIpv6 s = true := by
          rw [not_or, not_not] at haddress
          exact haddress.2
        refine ⟨'[' :: (s ++ [']']), ?_, .inl ⟨s, rfl, hs⟩⟩
        split at h
        · cases h
          simp [portText]
        · cases h
          simp [portText]
        · cases h
  · -- a name: it ends at the last colon, and none is left in it
    rename_i hother
    have hhead : a.head? ≠ some '[' := by
      intro hhead
      obtain ⟨rest, rfl⟩ := List.head?_eq_some_iff.1 hhead
      exact hother rest rfl
    split at h
    · rename_i host port hsplit
      obtain ⟨rfl, -⟩ := Text.rsplitOnce_eq hsplit
      split at h
      · cases h
      · rename_i hhost
        rw [not_or] at hhost
        cases h
        refine ⟨host, rfl, .inr ⟨hhost.1, fun hstart => hhead ?_, hhost.2⟩⟩
        rw [List.head?_append_of_ne_nil _ hhost.1]
        exact hstart
    · rename_i hsplit
      split at h
      · cases h
      · rename_i hne
        cases h
        exact ⟨a, (List.append_nil a).symm, .inr ⟨hne, hhead, Text.rsplitOnce_eq_none hsplit⟩⟩

/-- What `from_config` asks of the host and port. -/
structure Accepted (a : Text) : Prop where
  ne_nil : a ≠ []
  userInfo : '@' ∉ a
  path : ¬ ('/' ∈ a ∨ '?' ∈ a ∨ '#' ∈ a)
  valid : validateAuthority a = .ok ()

theorem validateAuthority_ok_iff {a : Text} : validateAuthority a = .ok () ↔
    (∀ c ∈ a, Text.isWhitespace c = false) ∧ ∃ p, portOf a = .ok p ∧ ∀ n ∈ p, Address.isU16 n = true := by
  have hport (n : Text) : ¬ (n = [] ∨ ¬ Address.isU16 n = true) ↔ Address.isU16 n = true := by
    rw [not_or, not_not, and_iff_right_iff_imp]
    rintro h rfl
    exact absurd h (by decide)
  unfold validateAuthority
  by_cases hspace : a.any Text.isWhitespace = true
  · rw [if_pos hspace]
    obtain ⟨c, hc, hwhite⟩ := List.any_eq_true.1 hspace
    constructor
    · intro h
      cases h
    · rintro ⟨hall, -⟩
      rw [hall c hc] at hwhite
      cases hwhite
  · have hall : ∀ c ∈ a, Text.isWhitespace c = false := fun c hc => by
      rw [Bool.eq_false_iff]
      exact fun hwhite => hspace (List.any_eq_true.2 ⟨c, hc, hwhite⟩)
    rw [if_neg hspace, and_iff_right hall, Loop.bind_ok]
    refine exists_congr fun p => and_congr_right fun _ => ?_
    cases p with
    | none =>
      refine iff_of_true rfl fun n hn => ?_
      cases hn
    | some n =>
      dsimp only
      by_cases hn : Address.isU16 n = true
      · rw [if_neg ((hport n).2 hn)]
        refine iff_of_true rfl fun m hm => ?_
        cases hm
        exact hn
      · rw [if_pos (not_not.1 (mt (hport n).1 hn))]
        exact iff_of_false (fun h => by cases h) fun h => hn (h n rfl)

theorem isDigit_addressChar {c : Char} (h : c.isDigit = true) : addressChar c = true := by
  simp [addressChar, Address.isHexDigit, h]

/-- The characters of a number are digits, but for its sign. -/
theorem isU16_chars {n : Text} (h : Address.isU16 n = true) : ∀ c ∈ n, c.isDigit = true ∨ c = '+' := by
  rcases isU16_iff.1 h with hn | ⟨d, rfl, hd⟩
  · exact fun c hc => .inl (hn.digits c hc)
  · exact List.forall_mem_cons.2 ⟨.inr rfl, fun c hc => .inl (hd.digits c hc)⟩

variable {host port : Text} {p : Option Text}

theorem portOf_parts (hhost : Host host ∨ BracketName host) (hp : ∀ n ∈ p, Address.isU16 n = true) :
    portOf (host ++ portText p) = .ok p := by
  rcases host_iff.1 hhost with ⟨s, rfl, hs⟩ | ⟨hne, hhead, hchars⟩
  · exact portOf_ipv6 hs p
  · refine portOf_name hne hhead (fun hc => absurd (hchars ':' hc) (by decide)) fun n hn hc => ?_
    rcases isU16_chars (hp n hn) ':' hc with h | h
    · exact absurd h (by decide)
    · exact absurd h (by decide)

/-- Nothing in an accepted host or port ends it, and there is no white space. -/
theorem parts_plain (hhost : Host host ∨ BracketName host) (hp : ∀ n ∈ p, Address.isU16 n = true) :
    ∀ c ∈ host ++ portText p, Text.isWhitespace c = false ∧ c ∉ ['@', '/', '?', '#'] := by
  have ofAddress {c : Char} (h : addressChar c = true) : Text.isWhitespace c = false ∧ c ∉ ['@', '/', '?', '#'] := by
    obtain ⟨hwhite, hc⟩ := addressChar_plain h
    exact ⟨hwhite, fun hin => hc (List.mem_append_left ['[', ']'] hin)⟩
  intro c hc
  rcases List.mem_append.1 hc with hc | hc
  · rcases host_iff.1 hhost with ⟨s, rfl, hs⟩ | ⟨-, -, hchars⟩
    · rw [List.mem_cons, List.mem_append, List.mem_singleton] at hc
      rcases hc with rfl | hc | rfl
      · decide
      · exact ofAddress (addressChar_of_isIpv6 hs c hc)
      · decide
    · have hplain := hchars c hc
      rw [hostChar, Bool.and_eq_true, Bool.not_eq_true', decide_eq_true_eq] at hplain
      exact ⟨hplain.1, fun hin => hplain.2 (List.mem_cons_of_mem ':' hin)⟩
  · cases p with
    | none => cases hc
    | some n =>
      rcases List.mem_cons.1 hc with rfl | hc
      · decide
      · rcases isU16_chars (hp n rfl) c hc with h | rfl
        · exact ofAddress (isDigit_addressChar h)
        · decide

theorem accepted_iff {a : Text} : Accepted a ↔
    ∃ host port, a = host ++ port ∧ (Host host ∨ BracketName host) ∧ (Port port ∨ SignedPort port) := by
  constructor
  · rintro ⟨-, huser, hpath, hvalid⟩
    obtain ⟨hwhite, p, hp, hu16⟩ := validateAuthority_ok_iff.1 hvalid
    obtain ⟨host, rfl, hhost⟩ := portOf_cases hp
    refine ⟨host, portText p, rfl, host_iff.2 (hhost.imp_right fun ⟨hne, hhead, hcolon⟩ =>
      ⟨hne, hhead, fun c hc => ?_⟩),
      port_iff.2 ⟨p, rfl, hu16⟩⟩
    -- the characters a name must not have are each ruled out by one of the checks
    have hin : c ∈ host ++ portText p := List.mem_append_left _ hc
    rw [not_or, not_or] at hpath
    simp only [hostChar, hwhite c hin, Bool.not_false, Bool.true_and, decide_eq_true_eq, List.mem_cons,
      List.not_mem_nil, or_false,
      not_or]
    refine ⟨?_, ?_, ?_, ?_, ?_⟩
    · exact fun h => hcolon (h ▸ hc)
    · exact fun h => huser (h ▸ hin)
    · exact fun h => hpath.1 (h ▸ hin)
    · exact fun h => hpath.2.1 (h ▸ hin)
    · exact fun h => hpath.2.2 (h ▸ hin)
  · rintro ⟨host, port, rfl, hhost, hport⟩
    obtain ⟨p, rfl, hp⟩ := port_iff.1 hport
    have hplain := parts_plain hhost hp
    have hne : host ≠ [] := by
      rcases host_iff.1 hhost with ⟨s, rfl, -⟩ | ⟨hne, -⟩
      · exact List.cons_ne_nil _ _
      · exact hne
    have hvalid := validateAuthority_ok_iff.2 ⟨fun c hc => (hplain c hc).1, p, portOf_parts hhost hp, hp⟩
    refine ⟨by simp [hne], fun hin => ?_, ?_, hvalid⟩
    · exact (hplain '@' hin).2 (by decide)
    · rintro (hin | hin | hin)
      · exact (hplain '/' hin).2 (by decide)
      · exact (hplain '?' hin).2 (by decide)
      · exact (hplain '#' hin).2 (by decide)

/-- What is accepted beyond the grammar is not written in it in another way. -/
theorem parts_strict {host' port' : Text} (h : host ++ port = host' ++ port') (hhost : Host host) (hport : Port port)
    (hhost' : Host host' ∨ BracketName host') (hport' : Port port' ∨ SignedPort port') :
    ¬ (BracketName host' ∨ SignedPort port') := by
  obtain ⟨p, rfl, hp⟩ := port_iff.1 (.inl hport)
  obtain ⟨p', rfl, hp'⟩ := port_iff.1 hport'
  obtain rfl : p = p' := by
    have hof := portOf_parts (.inl hhost) hp
    rw [h, portOf_parts hhost' hp'] at hof
    exact (Except.ok.inj hof).symm
  obtain rfl := List.append_cancel_right h
  rintro (hbracket | hsigned)
  · cases hhost with
    | name _ hchars =>
      rcases hbracket.bracket with hin | hin
      · exact (hchars '[' hin).2.1 rfl
      · exact (hchars ']' hin).2.2 rfl
    | ipv6 _ => exact hbracket.start rfl
  · cases p with
    | none => cases hsigned
    | some n =>
      cases hsigned
      cases hport with
      | number h => exact absurd (h.digits '+' List.mem_cons_self) (by decide)

/-! ## Endpoints -/

variable {endpoint scheme rest : Text} {cfg : EndpointConfig} {b : EndpointBuilder}

theorem splitScheme_written (hscheme : Text.lower scheme = "https".toList ∨ Text.lower scheme = "http".toList)
    (rest : Text) :
    splitScheme (scheme ++ "://".toList ++ rest) = .ok (Text.lower scheme, rest) := by
  have hcolon : ':' ∉ scheme := by
    rw [← Text.mem_lower_iff (by decide) (by decide)]
    rcases hscheme with h | h
    · rw [h]
      decide
    · rw [h]
      decide
  have hsplit : Text.splitOnce "://".toList (scheme ++ "://".toList ++ rest) = some (scheme, rest) := by
    rw [List.append_assoc]
    exact Text.splitOnce_append hcolon rest
  rw [splitScheme, hsplit]
  dsimp only
  rcases hscheme with h | h
  · rw [if_pos h, h]
  · rw [h, if_neg (by decide), if_pos rfl]

theorem splitScheme_parts (h : splitScheme endpoint = .ok (scheme, rest)) :
    ∃ written, endpoint = written ++ "://".toList ++ rest ∧
    Text.lower written = scheme ∧ (Text.lower written = "https".toList ∨ Text.lower written = "http".toList) := by
  unfold splitScheme at h
  split at h
  · cases h
  · rename_i written rest' hsplit
    have hendpoint := Text.splitOnce_eq hsplit
    split at h
    · rename_i hlower
      cases h
      exact ⟨written, hendpoint, hlower, .inl hlower⟩
    · split at h
      · rename_i hlower
        cases h
        exact ⟨written, hendpoint, hlower, .inr hlower⟩
      · cases h

/-- The host and port of an accepted endpoint are kept. -/
theorem fromConfig_accepted (h : EndpointBuilder.fromConfig cfg = .ok b) : Accepted b.baseHost := by
  unfold EndpointBuilder.fromConfig at h
  split at h
  · cases h
  · obtain ⟨⟨scheme, rest⟩, -, h⟩ := Loop.bind_ok.1 h
    dsimp only at h
    split at h
    · cases h
    · rename_i hne
      split at h
      · cases h
      · rename_i huser
        split at h
        · cases h
        · rename_i hpath
          obtain ⟨_, hvalid, h⟩ := Loop.bind_ok.1 h
          cases h
          exact ⟨hne, huser, hpath, hvalid⟩

theorem fromConfig_of_accepted (hregion : cfg.region ≠ [])
    (hscheme : splitScheme (cfg.endpoint.getD (EndpointBuilder.awsEndpoint cfg.region)) = .ok (scheme, rest))
    (h : Accepted (Text.trimEnd '/' rest)) : ∃ b, EndpointBuilder.fromConfig cfg = .ok b := by
  rw [EndpointBuilder.fromConfig, if_neg hregion, hscheme]
  simp only [bind, Except.bind, if_neg h.ne_nil, if_neg h.userInfo, if_neg h.path, h.valid]
  exact ⟨_, rfl⟩

theorem Written.split (h : Written endpoint scheme host port) (hhost : Host host ∨ BracketName host)
    (hport : Port port ∨ SignedPort port) :
    ∃ rest, splitScheme endpoint = .ok (Text.lower scheme, rest) ∧ Text.trimEnd '/' rest = host ++ port := by
  obtain ⟨hscheme, slashes, rfl⟩ := h
  have hslash : '/' ∉ host ++ port := fun hin => (accepted_iff.2 ⟨host, port, rfl, hhost, hport⟩).path (.inl hin)
  exact ⟨_, splitScheme_written hscheme _, Text.trimEnd_append_replicate hslash slashes⟩

/-- An accepted endpoint is written with the host and port that are used. -/
theorem fromConfig_written (h : EndpointBuilder.fromConfig cfg = .ok b) (hendpoint : cfg.endpoint = some endpoint) :
    ∃ scheme host port, Written endpoint scheme host port ∧ (Host host ∨ BracketName host) ∧
      (Port port ∨ SignedPort port) ∧
      b.base = Text.lower scheme ++ "://".toList ++ (host ++ port) ∧ b.baseHost = host ++ port := by
  obtain ⟨host, port, hparts, hhost, hport⟩ := accepted_iff.1 (fromConfig_accepted h)
  obtain ⟨scheme, rest, hsplit, hbase, htrim, -⟩ := fromConfig_ok h
  rw [hendpoint, Option.getD_some] at hsplit
  obtain ⟨written, rfl, rfl, hscheme⟩ := splitScheme_parts hsplit
  obtain ⟨slashes, hslashes⟩ := Text.eq_trimEnd_append '/' rest
  rw [hparts] at hbase htrim
  rw [← htrim] at hslashes
  exact ⟨written, host, port, ⟨hscheme, slashes, by rw [hslashes]⟩, hhost, hport, hbase, hparts⟩

theorem accepts_of_written (hregion : cfg.region ≠ []) (hendpoint : cfg.endpoint = some endpoint)
    (h : Written endpoint scheme host port) (hhost : Host host ∨ BracketName host) (hport : Port port ∨
      SignedPort port) :
    ∃ b, EndpointBuilder.fromConfig cfg = .ok b := by
  obtain ⟨rest, hsplit, htrim⟩ := h.split hhost hport
  have hconfig : splitScheme (cfg.endpoint.getD (EndpointBuilder.awsEndpoint cfg.region)) = .ok (Text.lower scheme,
    rest) := by
    rw [hendpoint, Option.getD_some, hsplit]
  exact fromConfig_of_accepted hregion hconfig (accepted_iff.2 ⟨host, port, htrim, hhost, hport⟩)

theorem Lax.not_grammar (h : Lax endpoint) : ¬ Grammar endpoint := by
  rintro ⟨scheme, host, port, hwritten, hhost, hport⟩
  obtain ⟨scheme', host', port', hwritten', hhost', hport', hlax⟩ := h
  obtain ⟨rest, hsplit, htrim⟩ := hwritten.split (.inl hhost) (.inl hport)
  obtain ⟨rest', hsplit', htrim'⟩ := hwritten'.split hhost' hport'
  obtain ⟨-, rfl⟩ := Prod.mk.inj (Except.ok.inj (hsplit.symm.trans hsplit'))
  exact parts_strict (htrim.symm.trans htrim') hhost hport hhost' hport' hlax

/-- The vault of a user who names this endpoint. -/
def endpointOf (endpoint : String) : EndpointConfig := ⟨some endpoint.toList, "us-east-1".toList, "vault".toList, false⟩

end Authority

end Falach
