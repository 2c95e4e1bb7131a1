import Falach.Keepass.Database
import Falach.Lib.Lossy
import Falach.Lib.Loops
import Falach.Lib.Wire
/-!
# Variant dictionaries

The dictionaries in the header of a file: the settings of the key derivation, and what other programs keep there. A
dictionary is written in the order its hash map is walked in.
-/

namespace Keepass

open Wire

/-- How reading a part of a file ends without a result: an error is returned, or a slice or an index is out of range. -/
inductive Unread (ε : Type) where
  | error (e : ε)
  | panic
deriving DecidableEq

/-- `&buffer[..n]`, and what comes after it. -/
def slice {ε : Type} (n : Nat) (buffer : Bytes) : Except (Unread ε) (Bytes × Bytes) :=
  match splitExact n buffer with
  | some parts => .ok parts
  | none => .error .panic

theorem slice_append {ε : Type} {n : Nat} {body rest : Bytes} (h : body.length = n) :
    slice (ε := ε) n (body ++ rest) = .ok (body, rest) := by
  rw [slice, splitExact_append h]

inductive VariantDictionaryValue where
  | uInt32 (v : UInt32)
  | uInt64 (v : UInt64)
  | bool (v : Bool)
  | int32 (v : Int32)
  | int64 (v : Int64)
  | string (v : String)
  | byteArray (v : Bytes)
deriving DecidableEq

structure VariantDictionary where
  data : HashMap String VariantDictionaryValue := ∅
deriving DecidableEq

inductive VariantDictionaryError where
  | invalidVersion (version : Nat)
  | invalidValueType (valueType : UInt8)
  | missingKey (key : String)
  | mistyped (key : String)
  | notTerminated
deriving DecidableEq

def variantDictionaryVersion : Nat := 0x100
def variantDictionaryEnd : UInt8 := 0x0

def u32TypeId : UInt8 := 0x04
def u64TypeId : UInt8 := 0x05
def boolTypeId : UInt8 := 0x08
def i32TypeId : UInt8 := 0x0c
def i64TypeId : UInt8 := 0x0d
def strTypeId : UInt8 := 0x18
def bytesTypeId : UInt8 := 0x42

namespace VariantDictionaryValue

def typeId : VariantDictionaryValue → UInt8
  | uInt32 _ => u32TypeId
  | uInt64 _ => u64TypeId
  | bool _ => boolTypeId
  | int32 _ => i32TypeId
  | int64 _ => i64TypeId
  | string _ => strTypeId
  | byteArray _ => bytesTypeId

/-- The bytes of the value, without their length. -/
def body : VariantDictionaryValue → Bytes
  | uInt32 v => leBytes 4 v.toNat
  | uInt64 v => leBytes 8 v.toNat
  | bool v => [if v then 1 else 0]
  | int32 v => leBytes 4 v.toUInt32.toNat
  | int64 v => leBytes 8 v.toUInt64.toNat
  | string v => Text.utf8 v.toList
  | byteArray v => v

/-- A number is read from the first bytes of its value, and there may be more. -/
def read (valueType : UInt8) (buffer : Bytes) : Except (Unread VariantDictionaryError) VariantDictionaryValue :=
  if valueType = u32TypeId then (slice 4 buffer).map fun x => uInt32 (UInt32.ofNat (ofLe x.1))
  else if valueType = u64TypeId then (slice 8 buffer).map fun x => uInt64 (UInt64.ofNat (ofLe x.1))
  else if valueType = boolTypeId then .ok (bool (buffer ≠ [0]))
  else if valueType = i32TypeId then (slice 4 buffer).map fun x => int32 (UInt32.ofNat (ofLe x.1)).toInt32
  else if valueType = i64TypeId then (slice 8 buffer).map fun x => int64 (UInt64.ofNat (ofLe x.1)).toInt64
  else if valueType = strTypeId then .ok (string (String.ofList (Text.fromUtf8Lossy buffer)))
  else if valueType = bytesTypeId then .ok (byteArray buffer)
  else .error (.error (.invalidValueType valueType))

end VariantDictionaryValue

namespace VariantDictionary

/-- The loop of `parse`, with what is left of the buffer; the first argument bounds the rounds. -/
def parseLoop : Nat → HashMap String VariantDictionaryValue → Bytes →
    Except (Unread VariantDictionaryError) (HashMap String VariantDictionaryValue × Bytes)
  | 0, data, rest => .ok (data, rest)
  | n + 1, data, rest =>
    if 9 < rest.length then do
      let (valueType, rest) ← slice 1 rest
      let (keyLength, rest) ← slice 4 rest
      let (key, rest) ← slice (ofLe keyLength) rest
      let (valueLength, rest) ← slice 4 rest
      let (valueBuffer, rest) ← slice (ofLe valueLength) rest
      let value ← VariantDictionaryValue.read (valueType.headD 0) valueBuffer
      parseLoop n (data.insert (String.ofList (Text.fromUtf8Lossy key)) value) rest
    else .ok (data, rest)

def parse (buffer : Bytes) : Except (Unread VariantDictionaryError) VariantDictionary := do
  let (version, rest) ← slice 2 buffer
  if ofLe version ≠ variantDictionaryVersion then throw (.error (.invalidVersion (ofLe version)))
  let (data, rest) ← parseLoop rest.length ∅ rest
  if rest.head? ≠ some variantDictionaryEnd then throw (.error .notTerminated)
  return ⟨data⟩

/-- A field of the dictionary. -/
def dumpField (field : String × VariantDictionaryValue) : Bytes :=
  field.2.typeId :: (withLen (Text.utf8 field.1.toList) ++ withLen field.2.body)

/-- `dump`, with the order the hash map is walked in. -/
def dump (walk : Enumeration String) (vd : VariantDictionary) : Bytes :=
  leBytes 2 variantDictionaryVersion ++ (vd.data.items walk).flatMap dumpField ++ [variantDictionaryEnd]

def get (vd : VariantDictionary) (key : String) : Except VariantDictionaryError VariantDictionaryValue :=
  match vd.data.lookup key with
  | some value => .ok value
  | none => .error (.missingKey key)

/-- No key and no value is too long for its length. -/
def Fits (vd : VariantDictionary) : Prop := ∀ key value, vd.data.lookup key = some value →
  (Text.utf8 key.toList).length < 2 ^ 32 ∧ value.body.length < 2 ^ 32

end VariantDictionary

/-! ## What was written is read -/

theorem slice_leBytes {ε : Type} (width n : Nat) : slice (ε := ε) width (leBytes width n) = .ok (leBytes width n, []) := by
  have h : slice (ε := ε) width (leBytes width n ++ []) = _ := slice_append (length_leBytes width n)
  rwa [List.append_nil] at h

namespace VariantDictionaryValue

theorem read_u32 (buffer : Bytes) : read u32TypeId buffer =
    (slice 4 buffer).map fun x => uInt32 (UInt32.ofNat (ofLe x.1)) := rfl

theorem read_u64 (buffer : Bytes) : read u64TypeId buffer =
    (slice 8 buffer).map fun x => uInt64 (UInt64.ofNat (ofLe x.1)) := rfl

theorem read_i32 (buffer : Bytes) : read i32TypeId buffer =
    (slice 4 buffer).map fun x => int32 (UInt32.ofNat (ofLe x.1)).toInt32 := rfl

theorem read_i64 (buffer : Bytes) : read i64TypeId buffer =
    (slice 8 buffer).map fun x => int64 (UInt64.ofNat (ofLe x.1)).toInt64 := rfl

theorem read_str (buffer : Bytes) : read strTypeId buffer = .ok (string (String.ofList (Text.fromUtf8Lossy buffer))) :=
  rfl

theorem read_body (value : VariantDictionaryValue) : read value.typeId value.body = .ok value := by
  cases value with
  | uInt32 v =>
    have hv : ofLe (leBytes 4 v.toNat) = v.toNat := ofLe_leBytes v.toNat_lt
    rw [typeId, body, read_u32, slice_leBytes, Except.map, hv, UInt32.ofNat_toNat]
  | uInt64 v =>
    have hv : ofLe (leBytes 8 v.toNat) = v.toNat := ofLe_leBytes v.toNat_lt
    rw [typeId, body, read_u64, slice_leBytes, Except.map, hv, UInt64.ofNat_toNat]
  | bool v => cases v <;> rfl
  | int32 v =>
    have hv : ofLe (leBytes 4 v.toUInt32.toNat) = v.toUInt32.toNat := ofLe_leBytes v.toUInt32.toNat_lt
    rw [typeId, body, read_i32, slice_leBytes, Except.map, hv, UInt32.ofNat_toNat, Int32.toInt32_toUInt32]
  | int64 v =>
    have hv : ofLe (leBytes 8 v.toUInt64.toNat) = v.toUInt64.toNat := ofLe_leBytes v.toUInt64.toNat_lt
    rw [typeId, body, read_i64, slice_leBytes, Except.map, hv, UInt64.ofNat_toNat, Int64.toInt64_toUInt64]
  | string v => rw [typeId, body, read_str, Text.fromUtf8Lossy_utf8, String.ofList_toList]
  | byteArray v => rfl

end VariantDictionaryValue

namespace VariantDictionary

variable {fields : List (String × VariantDictionaryValue)} {data : HashMap String VariantDictionaryValue}

theorem nine_le_length_dumpField (field : String × VariantDictionaryValue) : 9 ≤ (dumpField field).length := by
  simp only [dumpField, withLen, List.length_cons, List.length_append, length_leBytes]
  omega

/-- A field is read, and put into the dictionary. -/
theorem parseLoop_dumpField {field : String × VariantDictionaryValue} {rest : Bytes}
    (hkey : (Text.utf8 field.1.toList).length < 2 ^ 32) (hvalue : field.2.body.length < 2 ^ 32) (hrest : rest ≠ [])
    (n : Nat) : parseLoop (n + 1) data (dumpField field ++ rest) =
      parseLoop n (data.insert field.1 field.2) rest := by
  have hmore : 9 < (dumpField field ++ rest).length := by
    have hfield := nine_le_length_dumpField field
    have hpos := List.length_pos_iff.2 hrest
    rw [List.length_append]
    omega
  have hkeyLen : ofLe (leBytes 4 (Text.utf8 field.1.toList).length) = (Text.utf8 field.1.toList).length :=
    ofLe_leBytes hkey
  have hvalueLen : ofLe (leBytes 4 field.2.body.length) = field.2.body.length := ofLe_leBytes hvalue
  have hbytes : dumpField field ++ rest = [field.2.typeId] ++ (leBytes 4 (Text.utf8 field.1.toList).length ++
      (Text.utf8 field.1.toList ++ (leBytes 4 field.2.body.length ++ (field.2.body ++ rest)))) := by
    simp only [dumpField, withLen, List.cons_append, List.nil_append, List.append_assoc]
  rw [parseLoop, if_pos hmore, hbytes, slice_append (by rfl), bind, Monad.toBind, Except.instMonad]
  simp only [Except.bind, slice_append (length_leBytes 4 _), hkeyLen, slice_append rfl, hvalueLen, List.headD_cons,
    VariantDictionaryValue.read_body, Text.fromUtf8Lossy_utf8, String.ofList_toList]

/-- All fields are read, in the order they were written in. -/
theorem parseLoop_dumpFields (hfits : ∀ field ∈ fields,
      (Text.utf8 field.1.toList).length < 2 ^ 32 ∧ field.2.body.length < 2 ^ 32) {n : Nat} (hn : fields.length ≤ n) :
    parseLoop n data (fields.flatMap dumpField ++ [variantDictionaryEnd]) =
      .ok (fields.foldl (fun data field => data.insert field.1 field.2) data, [variantDictionaryEnd]) := by
  induction fields generalizing n data with
  | nil => cases n <;> rfl
  | cons field fields ih =>
    obtain ⟨n, rfl⟩ := Nat.exists_eq_succ_of_ne_zero (Nat.ne_of_gt (Nat.lt_of_lt_of_le (Nat.succ_pos _) hn))
    obtain ⟨hfield, hfits⟩ := List.forall_mem_cons.1 hfits
    rw [List.flatMap_cons, List.append_assoc, parseLoop_dumpField hfield.1 hfield.2 (by simp), List.foldl_cons]
    exact ih hfits (Nat.le_of_succ_le_succ hn)

theorem length_fields_le (fields : List (String × VariantDictionaryValue)) :
    fields.length ≤ (fields.flatMap dumpField).length := by
  induction fields with
  | nil => exact Nat.zero_le _
  | cons field fields ih =>
    have hfield := nine_le_length_dumpField field
    rw [List.flatMap_cons, List.length_append, List.length_cons]
    omega

/-- What was written is read back, in whatever order the hash map was walked. -/
theorem parse_dump {vd : VariantDictionary} (hfits : vd.Fits) (walk : Enumeration String) :
    parse (vd.dump walk) = .ok vd := by
  have hfields : ∀ field ∈ vd.data.items walk,
      (Text.utf8 field.1.toList).length < 2 ^ 32 ∧ field.2.body.length < 2 ^ 32 := fun field hfield =>
    hfits field.1 field.2 ((Finmap.mem_items walk vd.data).1 hfield)
  have hversion : ofLe (leBytes 2 variantDictionaryVersion) = variantDictionaryVersion := ofLe_leBytes (by decide)
  have hn : (vd.data.items walk).length ≤
      ((vd.data.items walk).flatMap dumpField ++ [variantDictionaryEnd]).length := by
    rw [List.length_append]
    exact Nat.le_trans (length_fields_le _) (Nat.le_add_right _ _)
  rw [parse, dump, List.append_assoc, slice_append (length_leBytes 2 _), bind, Monad.toBind, Except.instMonad]
  simp only [Except.bind, hversion, ne_eq, not_true_eq_false, if_false, parseLoop_dumpFields hfields hn]
  rw [Finmap.foldl_insert_items]
  rfl

theorem length_dump (vd : VariantDictionary) (walk : Enumeration String) :
    (vd.dump walk).length = ((vd.data.items walk).flatMap dumpField).length + 3 := by
  rw [dump, List.length_append, List.length_append, length_leBytes, List.length_singleton]
  omega

/-- What has a length in four bytes has only keys and values that have one. -/
theorem fits_of_length {vd : VariantDictionary} {walk : Enumeration String} (h : (vd.dump walk).length < 2 ^ 32) :
    vd.Fits := by
  intro key value hkey
  have hmem : dumpField (key, value) ∈ (vd.data.items walk).map dumpField :=
    List.mem_map_of_mem ((Finmap.mem_items walk vd.data).2 hkey)
  have hle := (List.sublist_flatten_of_mem hmem).length_le
  rw [← List.flatMap_def] at hle
  rw [length_dump] at h
  simp only [dumpField, withLen, List.length_cons, List.length_append, length_leBytes] at hle
  constructor <;> omega

end VariantDictionary

end Keepass
