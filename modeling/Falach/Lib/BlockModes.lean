import Falach.Lib.Wire
/-!
# Block and stream ciphers

Cipher block chaining over any block cipher, the padding of PKCS #7, and a key stream that goes on from one text to the
next.
-/

namespace Cipher

variable {size : Nat} {a b bytes : Octets}

/-! ## Exclusive or -/

def xor (a b : Octets) : Octets := List.zipWith (fun x y => x ^^^ y) a b

@[simp] theorem length_xor (a b : Octets) : (xor a b).length = min a.length b.length := List.length_zipWith

theorem xor_xor (h : a.length ≤ b.length) : xor (xor a b) b = a := by
  induction a generalizing b with
  | nil => rfl
  | cons x a ih =>
    cases b with
    | nil => exact absurd h (Nat.not_succ_le_zero _)
    | cons y b =>
      have hx : (x ^^^ y) ^^^ y = x := by rw [UInt8.xor_assoc, UInt8.xor_self, UInt8.xor_zero]
      have htail := ih (Nat.le_of_succ_le_succ h)
      simp only [xor, List.zipWith_cons_cons, hx] at htail ⊢
      rw [htail]

/-! ## Padding -/

/-- `Pkcs7`: as many bytes as are missing from the last block, each of them that number, and a block if none are. -/
def padding (size length : Nat) : Octets :=
  List.replicate (size - length % size) (UInt8.ofNat (size - length % size))

def pad (size : Nat) (bytes : Octets) : Octets := bytes ++ padding size bytes.length

/-- The padding is taken off, if it is one. -/
def unpad (size : Nat) (bytes : Octets) : Option Octets := do
  let last ← bytes.getLast?
  let n := last.toNat
  if n = 0 ∨ size < n then none
  else if (bytes.drop (bytes.length - n)).all (· = last) then some (bytes.take (bytes.length - n))
  else none

theorem length_padding (size length : Nat) : (padding size length).length = size - length % size :=
  List.length_replicate

theorem unpad_pad (hpos : 0 < size) (hsize : size < 256) (bytes : Octets) : unpad size (pad size bytes) = some bytes := by
  have hmod := Nat.mod_lt bytes.length hpos
  obtain ⟨k, hk⟩ : ∃ k, size - bytes.length % size = k + 1 := ⟨size - bytes.length % size - 1, by omega⟩
  have hpad : pad size bytes = bytes ++ List.replicate (k + 1) (UInt8.ofNat (k + 1)) := by rw [pad, padding, hk]
  have hlast : (pad size bytes).getLast? = some (UInt8.ofNat (k + 1)) := by
    rw [hpad, List.replicate_succ', ← List.append_assoc, List.getLast?_concat]
  have hn : (UInt8.ofNat (k + 1)).toNat = k + 1 := UInt8.toNat_ofNat_of_lt' (by
    change k + 1 < 256
    omega)
  have hlen : (pad size bytes).length - (k + 1) = bytes.length := by
    rw [hpad, List.length_append, List.length_replicate, Nat.add_sub_cancel]
  have hall : (List.replicate (k + 1) (UInt8.ofNat (k + 1))).all (· = UInt8.ofNat (k + 1)) = true :=
    List.all_eq_true.2 fun x hx => decide_eq_true (List.eq_of_mem_replicate hx)
  rw [unpad, hlast, Option.bind_eq_bind, Option.bind_some]
  dsimp only
  rw [hn, if_neg (by omega), hlen, hpad, List.drop_left, List.take_left, if_pos hall]

theorem length_pad (hpos : 0 < size) (bytes : Octets) :
    (pad size bytes).length = (bytes.length / size + 1) * size := by
  have hmod := Nat.mod_lt bytes.length hpos
  have hdiv := Nat.div_add_mod bytes.length size
  rw [pad, List.length_append, length_padding, Nat.add_mul, Nat.one_mul, Nat.mul_comm]
  omega

/-! ## Cipher block chaining -/

/-- A permutation of the blocks for each key. -/
structure BlockCipher where
  encrypt : (key block : Octets) → Octets
  decrypt : (key block : Octets) → Octets

structure BlockCipher.Lawful (cipher : BlockCipher) (keyLen size : Nat) : Prop where
  length_encrypt : ∀ {key block}, key.length = keyLen → block.length = size → (cipher.encrypt key block).length = size
  decrypt_encrypt : ∀ {key block}, key.length = keyLen → block.length = size →
    cipher.decrypt key (cipher.encrypt key block) = block

section CBC

variable (cipher : BlockCipher) (size : Nat) (key : Octets)

/-- So many blocks are encrypted, each together with what the one before it was encrypted to. -/
def cbcEncrypt : Nat → Octets → Octets → Octets
  | 0, _, _ => []
  | n + 1, before, bytes =>
    let block := cipher.encrypt key (xor (bytes.take size) before)
    block ++ cbcEncrypt n block (bytes.drop size)

def cbcDecrypt : Nat → Octets → Octets → Octets
  | 0, _, _ => []
  | n + 1, before, bytes =>
    xor (cipher.decrypt key (bytes.take size)) before ++ cbcDecrypt n (bytes.take size) (bytes.drop size)

variable {cipher size key} {keyLen : Nat}

theorem length_cbcEncrypt (hc : cipher.Lawful keyLen size) (hkey : key.length = keyLen) {n : Nat} {before : Octets}
    (hbefore : before.length = size) (hlen : bytes.length = n * size) :
    (cbcEncrypt cipher size key n before bytes).length = n * size := by
  induction n generalizing before bytes with
  | zero => rw [cbcEncrypt, List.length_nil, Nat.zero_mul]
  | succ n ih =>
    rw [Nat.succ_mul] at hlen
    have htake : (bytes.take size).length = size := List.length_take_of_le (by omega)
    have hblock : (cipher.encrypt key (xor (bytes.take size) before)).length = size :=
      hc.length_encrypt hkey (by rw [length_xor, htake, hbefore, Nat.min_self])
    rw [cbcEncrypt, List.length_append, hblock, ih hblock (by rw [List.length_drop]; omega), Nat.succ_mul,
      Nat.add_comm]

/-- Blocks that were encrypted are decrypted to what they were. -/
theorem cbcDecrypt_cbcEncrypt (hc : cipher.Lawful keyLen size) (hkey : key.length = keyLen) {n : Nat} {before : Octets}
    (hbefore : before.length = size) (hlen : bytes.length = n * size) :
    cbcDecrypt cipher size key n before (cbcEncrypt cipher size key n before bytes) = bytes := by
  induction n generalizing before bytes with
  | zero =>
    rw [Nat.zero_mul] at hlen
    rw [cbcDecrypt, List.length_eq_zero_iff.1 hlen]
  | succ n ih =>
    rw [Nat.succ_mul] at hlen
    have htake : (bytes.take size).length = size := List.length_take_of_le (by omega)
    have hxor : (xor (bytes.take size) before).length = size := by rw [length_xor, htake, hbefore, Nat.min_self]
    have hblock := hc.length_encrypt hkey hxor
    rw [cbcEncrypt, cbcDecrypt, List.take_left' hblock, List.drop_left' hblock, hc.decrypt_encrypt hkey hxor,
      xor_xor (by omega), ih hblock (by rw [List.length_drop]; omega), List.take_append_drop]

/-- What is decrypted of bytes that are whole blocks, with its padding. -/
def cbcDecryptBlocks (cipher : BlockCipher) (size : Nat) (key iv bytes : Octets) : Option Octets :=
  if bytes.length % size = 0 then some (cbcDecrypt cipher size key (bytes.length / size) iv bytes) else none

def cbcEncryptPadded (cipher : BlockCipher) (size : Nat) (key iv bytes : Octets) : Octets :=
  cbcEncrypt cipher size key ((pad size bytes).length / size) iv (pad size bytes)

variable {iv : Octets}

theorem cbcDecryptBlocks_cbcEncryptPadded (hc : cipher.Lawful keyLen size) (hkey : key.length = keyLen) (hpos : 0 < size)
    (hiv : iv.length = size) (bytes : Octets) :
    cbcDecryptBlocks cipher size key iv (cbcEncryptPadded cipher size key iv bytes) = some (pad size bytes) := by
  have hblocks : (pad size bytes).length = (pad size bytes).length / size * size := by
    rw [length_pad hpos, Nat.mul_div_cancel _ hpos]
  have hlen : (cbcEncryptPadded cipher size key iv bytes).length = (pad size bytes).length / size * size :=
    length_cbcEncrypt hc hkey hiv hblocks
  have hwhole : (cbcEncryptPadded cipher size key iv bytes).length % size = 0 := by
    rw [hlen, Nat.mul_mod_left]
  have hn : (cbcEncryptPadded cipher size key iv bytes).length / size = (pad size bytes).length / size := by
    rw [hlen, Nat.mul_div_cancel _ hpos]
  rw [cbcDecryptBlocks, if_pos hwhole, hn, cbcEncryptPadded, cbcDecrypt_cbcEncrypt hc hkey hiv hblocks]

theorem length_cbcEncryptPadded (hc : cipher.Lawful keyLen size) (hkey : key.length = keyLen) (hpos : 0 < size)
    (hiv : iv.length = size) (bytes : Octets) :
    (cbcEncryptPadded cipher size key iv bytes).length = (bytes.length / size + 1) * size := by
  have hn : (pad size bytes).length / size = bytes.length / size + 1 := by
    rw [length_pad hpos, Nat.mul_div_cancel _ hpos]
  rw [cbcEncryptPadded, hn]
  exact length_cbcEncrypt hc hkey hiv (length_pad hpos bytes)

end CBC

/-! ## Key streams -/

/-- A stream cipher, and how much of its key stream is used up. -/
structure KeyStream where
  byte : Nat → UInt8
  used : Nat := 0

namespace KeyStream

/-- `apply_keystream`: both encryption and decryption. -/
def apply (stream : KeyStream) (bytes : Octets) : Octets × KeyStream :=
  (bytes.zipIdx.map fun x => x.1 ^^^ stream.byte (stream.used + x.2),
    { stream with used := stream.used + bytes.length })

@[simp] theorem length_apply (stream : KeyStream) (bytes : Octets) : (stream.apply bytes).1.length = bytes.length := by
  rw [apply, List.length_map, List.length_zipIdx]

/-- What was encrypted is decrypted where the stream was then, and the stream is then where it was after it. -/
theorem apply_apply (stream : KeyStream) (bytes : Octets) :
    stream.apply (stream.apply bytes).1 = (bytes, (stream.apply bytes).2) := by
  refine Prod.ext ?_ ?_
  · refine List.ext_getElem (by simp) fun i h h' => ?_
    simp only [apply, List.getElem_map, List.getElem_zipIdx, Nat.zero_add]
    rw [UInt8.xor_assoc, UInt8.xor_self, UInt8.xor_zero]
  · change { stream with used := stream.used + (stream.apply bytes).1.length } = _
    rw [length_apply]
    rfl

end KeyStream

end Cipher
