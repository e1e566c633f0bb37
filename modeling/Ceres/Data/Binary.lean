/-
  File:      Ceres/Data/Binary.lean
  Subject:   THE NATIVE PACKING ENGINE (`rust/ceres-core/src/binary.rs`).

  A wire format is a tree of nodes, each with padding before and after it. `packInto` appends a
  value's bytes to an output, `unpackFrom` reads a value at an offset and moves the offset on.
  A float is its 64-bit pattern; the narrowing and widening of the smaller formats are the
  parameter `Floats`.

  * `Spec.size` -- the packed size; `Spec.conforms` -- the values a spec describes;
  * `packInto`, `unpackFrom` -- the engine, with its error texts;
  * `unpackFrom_packInto` -- **unpacking inverts packing**, at every offset of every buffer.
-/
import Ceres.Library.Bytes

namespace Ceres.Data.Binary

open Ceres.Library

/-! ## 1. The data model -/

/-- The scalar kinds, fixed-width leaves of a spec. -/
inductive Scalar where
  | bool
  | uint8
  | int8
  | uint16
  | int16
  | uint32
  | int32
  | uint64
  | int64
  | float16
  | float32
  | float64
  | complex64
  | complex128
  deriving DecidableEq, Repr

/-- A byte order symbol: `<`, `>` or `=`. -/
inductive ByteOrder where
  | little
  | big
  | native
  deriving DecidableEq, Repr

mutual

/-- One node of a compiled packing program. -/
inductive Node where
  | bytes (length : Nat)
  | scalar (kind : Scalar)
  | tuple (values : List Spec)
  | sequence (element : Spec) (length : Nat)
  | model (fields : List (String × Spec))

/-- A node together with its layout modifiers. -/
structure Spec where
  node : Node
  order : Option ByteOrder := none
  paddingBefore : Nat := 0
  paddingAfter : Nat := 0

end

/-- The Python values the engine reads and builds. A model instance and the mapping it unpacks
    to are both named by their fields. -/
inductive Value where
  | bytes (data : List UInt8)
  | bool (b : Bool)
  | int (n : Int)
  | float (bits : BitVec 64)
  | complex (real imaginary : BitVec 64)
  | tuple (items : List Value)
  | model (fields : List (String × Value))

/-- The Python exceptions the engine raises. -/
inductive PyError where
  | typeError (text : String)
  | valueError (text : String)
  | overflowError (text : String)
  | attributeError (text : String)
  deriving DecidableEq, Repr

/-- The conversions between bit patterns: `none` where a finite double does not fit. Of what
    they compute only this much is used: zero is a number of every format. -/
structure Floats where
  narrow16 : BitVec 64 → Option (BitVec 16)
  widen16 : BitVec 16 → BitVec 64
  narrow32 : BitVec 64 → Option (BitVec 32)
  widen32 : BitVec 32 → BitVec 64
  ofInt : Int → Option (BitVec 64)
  zero16 : narrow16 0 = some 0 ∧ widen16 0 = 0
  zero32 : narrow32 0 = some 0 ∧ widen32 0 = 0

/-! ## 2. Sizes -/

def Scalar.size : Scalar → Nat
  | bool | uint8 | int8 => 1
  | uint16 | int16 | float16 => 2
  | uint32 | int32 | float32 => 4
  | uint64 | int64 | float64 | complex64 => 8
  | complex128 => 16

mutual

/-- The packed size in bytes of the node itself. -/
def Node.size : Node → Nat
  | .bytes length => length
  | .scalar kind => kind.size
  | .tuple values => sizes values
  | .sequence element length => element.size * length
  | .model fields => fieldSizes fields

/-- The packed size in bytes, including padding. -/
def Spec.size : Spec → Nat
  | ⟨node, _, paddingBefore, paddingAfter⟩ => paddingBefore + node.size + paddingAfter

def sizes : List Spec → Nat
  | [] => 0
  | spec :: rest => spec.size + sizes rest

def fieldSizes : List (String × Spec) → Nat
  | [] => 0
  | (_, spec) :: rest => spec.size + fieldSizes rest

end

/-! ## 3. Reading Python values -/

namespace Value

/-- Python's truth of a value; a float is false for both zeros. -/
def isTruthy : Value → Bool
  | bytes data => !data.isEmpty
  | bool b => b
  | int n => n != 0
  | float bits => bits <<< 1 != 0
  | complex real imaginary => real <<< 1 != 0 || imaginary <<< 1 != 0
  | tuple items => !items.isEmpty
  | model _ => true

/-- `extract::<i128>`; a Python bool is an integer. -/
def asInteger : Value → Option Int
  | bool b => some b.toInt
  | int n => if -(2 ^ 127) ≤ n ∧ n < 2 ^ 127 then some n else none
  | _ => none

/-- The items `try_iter` walks. -/
def items : Value → Except PyError (List Value)
  | tuple items => .ok items
  | bytes data => .ok (data.map fun b => .int b.toNat)
  | _ => .error (.typeError "object is not iterable")

/-- `getattr` of a model instance. -/
def getattr (v : Value) (name : String) : Except PyError Value :=
  match v with
  | model fields =>
    match fields.lookup name with
    | some x => .ok x
    | none => .error (.attributeError name)
  | _ => .error (.attributeError name)

end Value

/-- Extract an integer and check it against the width's valid range. -/
def intInRange (value : Value) (low high : Int) (name : String) : Except PyError Int :=
  match value.asInteger with
  | none => .error (.typeError s!"{name} requires an integer")
  | some number =>
    if number < low ∨ number > high then
      .error (.valueError s!"{name} requires {low} <= number <= {high}, got {number}")
    else .ok number

section Engine

variable (F : Floats)

/-- Extract a float; any Python number does. -/
def asFloat (value : Value) (name : String) : Except PyError (BitVec 64) :=
  let refused := .error (.typeError s!"{name} requires a number")
  match value with
  | .float bits => .ok bits
  | .int n => (F.ofInt n).elim refused .ok
  | .bool b => (F.ofInt b.toInt).elim refused .ok
  | _ => refused

/-- Extract a complex value, a real number being one with imaginary part zero. -/
def asComplex (value : Value) : Except PyError (BitVec 64 × BitVec 64) :=
  match value with
  | .complex real imaginary => .ok (real, imaginary)
  | _ =>
    match asFloat F value "" with
    | .ok real => .ok (real, 0)
    | .error _ => .error (.typeError "complex format requires a complex number")

/-- A narrowed float, or the overflow error `struct` raises for a finite value that does not
    fit. -/
def narrow {bits : Nat} (narrowed : Option (BitVec bits)) (name : String) :
    Except PyError (BitVec bits) :=
  narrowed.elim (.error (.overflowError s!"float too large to pack with {name} format")) .ok

theorem narrow_some {bits : Nat} (n : BitVec bits) (name : String) : narrow (some n) name = .ok n := rfl

/-! ## 4. Packing -/

/-- An integer of `width` bytes between `low` and `high`. -/
def packInteger (width : Nat) (low high : Int) (name : String) (value : Value)
    (endian : Endian) : Except PyError (List UInt8) := do
  let number ← intInRange value low high name
  return endian.write width (BitVec.ofInt (8 * width) number).toNat

/-- The bytes of a scalar. -/
def packScalar (kind : Scalar) (value : Value) (endian : Endian) :
    Except PyError (List UInt8) :=
  match kind with
  | .bool => .ok [if value.isTruthy then 1 else 0]
  | .uint8 => packInteger 1 0 0xff "uint8" value endian
  | .int8 => packInteger 1 (-0x80) 0x7f "int8" value endian
  | .uint16 => packInteger 2 0 0xffff "uint16" value endian
  | .int16 => packInteger 2 (-0x8000) 0x7fff "int16" value endian
  | .uint32 => packInteger 4 0 0xffffffff "uint32" value endian
  | .int32 => packInteger 4 (-0x80000000) 0x7fffffff "int32" value endian
  | .uint64 => packInteger 8 0 0xffffffffffffffff "uint64" value endian
  | .int64 => packInteger 8 (-0x8000000000000000) 0x7fffffffffffffff "int64" value endian
  | .float16 => do
    let number ← asFloat F value "float16"
    let narrowed ← narrow (F.narrow16 number) "e"
    return endian.write 2 narrowed.toNat
  | .float32 => do
    let number ← asFloat F value "float32"
    let narrowed ← narrow (F.narrow32 number) "f"
    return endian.write 4 narrowed.toNat
  | .float64 => do
    let number ← asFloat F value "float64"
    return endian.write 8 number.toNat
  | .complex64 => do
    let (real, imaginary) ← asComplex F value
    let real ← narrow (F.narrow32 real) "F"
    let imaginary ← narrow (F.narrow32 imaginary) "F"
    return endian.write 4 real.toNat ++ endian.write 4 imaginary.toNat
  | .complex128 => do
    let (real, imaginary) ← asComplex F value
    return endian.write 8 real.toNat ++ endian.write 8 imaginary.toNat

/-- The bytes of a `bytes` node: cut, or filled up with zeros, to the declared length. -/
def packBytes (length : Nat) (value : Value) : Except PyError (List UInt8) :=
  match value with
  | .bytes data =>
    let copied := min data.length length
    .ok (data.take copied ++ List.replicate (length - copied) 0)
  | _ => .error (.typeError "bytes format requires a bytes object")

mutual

/-- Append the packed `value` to `out`. -/
def packInto : Spec → Value → Endian → List UInt8 → Except PyError (List UInt8)
  | ⟨node, _, paddingBefore, paddingAfter⟩, value, endian, out => do
    let out ← packNode node value endian (out ++ List.replicate paddingBefore 0)
    return out ++ List.replicate paddingAfter 0

def packNode : Node → Value → Endian → List UInt8 → Except PyError (List UInt8)
  | .bytes length, value, _, out => return out ++ (← packBytes length value)
  | .scalar kind, value, endian, out => return out ++ (← packScalar F kind value endian)
  | .tuple values, value, endian, out => do packTuple values (← value.items) endian out
  | .sequence element _, value, endian, out => do
    -- the declared length only constrains unpacking
    (← value.items).foldlM (fun out item => packInto element item endian out) out
  | .model fields, value, endian, out => packFields fields value endian out

/-- Packing stops at the shorter of the items and the specs. -/
def packTuple : List Spec → List Value → Endian → List UInt8 → Except PyError (List UInt8)
  | child :: values, item :: items, endian, out => do
    packTuple values items endian (← packInto child item endian out)
  | _, _, _, out => .ok out

def packFields : List (String × Spec) → Value → Endian → List UInt8 →
    Except PyError (List UInt8)
  | [], _, _, out => .ok out
  | (name, child) :: fields, value, endian, out => do
    packFields fields value endian (← packInto child (← value.getattr name) endian out)

end

/-! ## 5. Unpacking -/

/-- The two's complement reading of a word. -/
def asSigned (width n : Nat) : Int := (BitVec.ofNat (8 * width) n).toInt

/-- The scalar at the front of `at`, whose length the caller checked. -/
def unpackScalar (kind : Scalar) (front : List UInt8) (endian : Endian) : Value :=
  match kind with
  | .bool => .bool (front.headD 0 != 0)
  | .uint8 => .int (endian.read 1 front)
  | .int8 => .int (asSigned 1 (endian.read 1 front))
  | .uint16 => .int (endian.read 2 front)
  | .int16 => .int (asSigned 2 (endian.read 2 front))
  | .uint32 => .int (endian.read 4 front)
  | .int32 => .int (asSigned 4 (endian.read 4 front))
  | .uint64 => .int (endian.read 8 front)
  | .int64 => .int (asSigned 8 (endian.read 8 front))
  | .float16 => .float (F.widen16 (BitVec.ofNat 16 (endian.read 2 front)))
  | .float32 => .float (F.widen32 (BitVec.ofNat 32 (endian.read 4 front)))
  | .float64 => .float (BitVec.ofNat 64 (endian.read 8 front))
  | .complex64 =>
    .complex (F.widen32 (BitVec.ofNat 32 (endian.read 4 front)))
      (F.widen32 (BitVec.ofNat 32 (endian.read 4 (front.drop 4))))
  | .complex128 =>
    .complex (BitVec.ofNat 64 (endian.read 8 front))
      (BitVec.ofNat 64 (endian.read 8 (front.drop 8)))

/-- `dict.set_item`: a new key goes last, a known one keeps its place. -/
def setItem : List (String × Value) → String → Value → List (String × Value)
  | [], name, value => [(name, value)]
  | (key, old) :: rest, name, value =>
    if key = name then (key, value) :: rest else (key, old) :: setItem rest name value

/-- The error of a buffer that ends before `required`. -/
def shortBuffer (required length : Nat) : PyError :=
  .valueError s!"unpack requires a buffer of at least {required} bytes, got {length}"

/-- `count` values one after another. -/
def unpackRepeat (read : Reader PyError Value) : Nat → Reader PyError (List Value)
  | 0 => fun _ offset => .ok ([], offset)
  | count + 1 => fun data offset =>
    read data offset >>= fun item =>
      (unpackRepeat read count data item.2).map fun items => (item.1 :: items.1, items.2)

mutual

/-- Read the value of `spec` at `offset`. -/
def unpackFrom : Spec → Endian → Reader PyError Value
  | ⟨node, _, paddingBefore, paddingAfter⟩, endian => fun data offset =>
    let offset := offset + paddingBefore
    if data.length < offset + node.size then
      .error (shortBuffer (offset + node.size) data.length)
    else
      (unpackNode node endian data offset).map fun p => (p.1, p.2 + paddingAfter)

def unpackNode : Node → Endian → Reader PyError Value
  | .bytes length, _ => fun data offset =>
    .ok (.bytes ((data.drop offset).take length), offset + length)
  | .scalar kind, endian => fun data offset =>
    .ok (unpackScalar F kind (data.drop offset) endian, offset + kind.size)
  | .tuple values, endian => fun data offset =>
    (unpackTuple values endian data offset).map fun p => (.tuple p.1, p.2)
  | .sequence element length, endian => fun data offset =>
    (unpackRepeat (unpackFrom element endian) length data offset).map fun p => (.tuple p.1, p.2)
  | .model fields, endian => fun data offset =>
    (unpackFields fields endian [] data offset).map fun p => (.model p.1, p.2)

def unpackTuple : List Spec → Endian → Reader PyError (List Value)
  | [], _ => fun _ offset => .ok ([], offset)
  | child :: values, endian => fun data offset =>
    unpackFrom child endian data offset >>= fun item =>
      (unpackTuple values endian data item.2).map fun items => (item.1 :: items.1, items.2)

/-- The fields in order, each set in the mapping built so far. -/
def unpackFields : List (String × Spec) → Endian → List (String × Value) →
    Reader PyError (List (String × Value))
  | [], _, arguments => fun _ offset => .ok (arguments, offset)
  | (name, child) :: fields, endian, arguments => fun data offset =>
    unpackFrom child endian data offset >>= fun item =>
      unpackFields fields endian (setItem arguments name item.1) data item.2

end

/-! ## 6. The values a spec describes -/

/-- A float that survives narrowing and widening. -/
def survives {bits : Nat} (narrow : BitVec 64 → Option (BitVec bits))
    (widen : BitVec bits → BitVec 64) (x : BitVec 64) : Bool :=
  (narrow x).any fun n => widen n == x

/-- A value of the kind: an integer in range, a float the format represents. -/
def Scalar.conforms : Scalar → Value → Bool
  | bool, .bool _ => true
  | uint8, .int n => 0 ≤ n ∧ n ≤ 0xff
  | int8, .int n => -0x80 ≤ n ∧ n ≤ 0x7f
  | uint16, .int n => 0 ≤ n ∧ n ≤ 0xffff
  | int16, .int n => -0x8000 ≤ n ∧ n ≤ 0x7fff
  | uint32, .int n => 0 ≤ n ∧ n ≤ 0xffffffff
  | int32, .int n => -0x80000000 ≤ n ∧ n ≤ 0x7fffffff
  | uint64, .int n => 0 ≤ n ∧ n ≤ 0xffffffffffffffff
  | int64, .int n => -0x8000000000000000 ≤ n ∧ n ≤ 0x7fffffffffffffff
  | float16, .float x => survives F.narrow16 F.widen16 x
  | float32, .float x => survives F.narrow32 F.widen32 x
  | float64, .float _ => true
  | complex64, .complex x y =>
    survives F.narrow32 F.widen32 x && survives F.narrow32 F.widen32 y
  | complex128, .complex _ _ => true
  | _, _ => false

/-- The field names in the order a mapping built from them holds them, after `seen`. -/
def firstNames (seen : List String) : List (String × Spec) → List String
  | [] => []
  | (name, _) :: fields =>
    if name ∈ seen then firstNames seen fields else name :: firstNames (seen ++ [name]) fields

mutual

/-- The values a spec describes. -/
def Spec.conforms : Spec → Value → Bool
  | ⟨node, _, _, _⟩, value => node.conforms value

def Node.conforms : Node → Value → Bool
  | .bytes length, .bytes data => data.length == length
  | .scalar kind, value => kind.conforms F value
  | .tuple values, .tuple items => tupleConforms values items
  | .sequence element length, .tuple items =>
    items.length == length && items.all fun item => element.conforms item
  | .model fields, .model record =>
    record.map Prod.fst == firstNames [] fields && fieldsConform fields record
  | _, _ => false

def tupleConforms : List Spec → List Value → Bool
  | [], [] => true
  | child :: values, item :: items => child.conforms item && tupleConforms values items
  | _, _ => false

def fieldsConform : List (String × Spec) → List (String × Value) → Bool
  | [], _ => true
  | (name, child) :: fields, record =>
    (record.lookup name).any (fun x => child.conforms x) && fieldsConform fields record

end

/-! ## 7. Scalars and byte strings read back -/

/-- `pack` appends bytes of length `size` from which `read` gets `value` back. -/
def RoundTrips {α : Type} (pack : List UInt8 → Except PyError (List UInt8))
    (read : Reader PyError α) (size : Nat) (value : α) : Prop :=
  ∃ bytes : List UInt8, (∀ out, pack out = .ok (out ++ bytes)) ∧ bytes.length = size ∧
    Reads read bytes value

/-- The bytes of a scalar and what stands behind them give the scalar back. -/
def ScalarTrips (kind : Scalar) (value : Value) (endian : Endian) : Prop :=
  ∃ bytes : List UInt8, packScalar F kind value endian = .ok bytes ∧ bytes.length = kind.size ∧
    ∀ rest, unpackScalar F kind (bytes ++ rest) endian = value

variable {width : Nat}

theorem packInteger_ok {low high n : Int} {name : String} {endian : Endian} (hlow : -(2 ^ 127) ≤ low)
    (hhigh : high < 2 ^ 127) (h : low ≤ n ∧ n ≤ high) : packInteger width low high name (.int n) endian =
      .ok (endian.write width (BitVec.ofInt (8 * width) n).toNat) := by
  have hrange : -(2 ^ 127) ≤ n ∧ n < 2 ^ 127 := by omega
  simp only [packInteger, intInRange, Value.asInteger, if_pos hrange]
  rw [if_neg (by omega)]
  rfl

theorem pow_bits (width : Nat) : 256 ^ width = 2 ^ (8 * width) := by
  rw [pow_mul]
  rfl

theorem read_unsigned {n : Int} (endian : Endian) (rest : List UInt8) (h : 0 ≤ n) (hlt : n < 2 ^ (8 * width)) :
    ((endian.read width (endian.write width (BitVec.ofInt (8 * width) n).toNat ++ rest) : Nat) : Int) = n := by
  have hcast : ((2 ^ (8 * width) : Nat) : Int) = 2 ^ (8 * width) := by push_cast; rfl
  rw [Endian.read_write, pow_bits, Nat.mod_eq_of_lt (BitVec.isLt _), BitVec.toNat_ofInt, hcast,
    Int.emod_eq_of_lt h hlt]
  omega

theorem read_signed {n : Int} (endian : Endian) (rest : List UInt8) (hpos : 0 < width)
    (h : -(2 ^ (8 * width - 1)) ≤ n) (hlt : n < 2 ^ (8 * width - 1)) : asSigned width
      (endian.read width (endian.write width (BitVec.ofInt (8 * width) n).toNat ++ rest)) = n := by
  rw [asSigned, Endian.read_write_bitVec endian (pow_bits width)]
  exact BitVec.toInt_ofInt_eq_self (by omega) h hlt

theorem scalarTrips_unsigned {kind : Scalar} {high n : Int} {name : String} {endian : Endian}
    (hpack : ∀ v, packScalar F kind v endian = packInteger width 0 high name v endian)
    (hunpack : ∀ front, unpackScalar F kind front endian = .int (endian.read width front))
    (hsize : kind.size = width) (hhigh : high < 2 ^ (8 * width)) (hwide : high < 2 ^ 127)
    (h : 0 ≤ n ∧ n ≤ high) : ScalarTrips F kind (.int n) endian := by
  refine ⟨_, (hpack _).trans (packInteger_ok (by norm_num) hwide h), ?_, fun rest => ?_⟩
  · rw [Endian.write_length, hsize]
  · rw [hunpack, read_unsigned endian rest h.1 (by omega)]

theorem scalarTrips_signed {kind : Scalar} {low high n : Int} {name : String} {endian : Endian}
    (hpack : ∀ v, packScalar F kind v endian = packInteger width low high name v endian)
    (hunpack : ∀ front, unpackScalar F kind front endian = .int (asSigned width (endian.read width front)))
    (hsize : kind.size = width) (hpos : 0 < width) (hlow : -(2 ^ (8 * width - 1)) ≤ low)
    (hhigh : high < 2 ^ (8 * width - 1)) (hwide : -(2 ^ 127) ≤ low ∧ high < 2 ^ 127)
    (h : low ≤ n ∧ n ≤ high) : ScalarTrips F kind (.int n) endian := by
  refine ⟨_, (hpack _).trans (packInteger_ok hwide.1 hwide.2 h), ?_, fun rest => ?_⟩
  · rw [Endian.write_length, hsize]
  · rw [hunpack, read_signed endian rest hpos (by omega) (by omega)]

theorem survives_iff {bits : Nat} {narrow : BitVec 64 → Option (BitVec bits)}
    {widen : BitVec bits → BitVec 64} {x : BitVec 64} :
    survives narrow widen x = true ↔ ∃ n, narrow x = some n ∧ widen n = x := by
  unfold survives
  cases narrow x <;> simp

/-- **Every scalar reads back.** -/
theorem scalar_roundTrips (kind : Scalar) (value : Value) (endian : Endian)
    (h : kind.conforms F value = true) : ScalarTrips F kind value endian := by
  cases kind <;> cases value <;> simp only [Scalar.conforms, Bool.false_eq_true,
    decide_eq_true_eq, Bool.and_eq_true, survives_iff] at h
  case bool.bool b =>
    exact ⟨_, rfl, by simp [Scalar.size], fun rest => by cases b <;> simp [unpackScalar, Value.isTruthy]⟩
  case uint8.int n =>
    exact scalarTrips_unsigned F (fun _ => rfl) (fun _ => rfl) rfl (by norm_num) (by norm_num) h
  case int8.int n =>
    exact scalarTrips_signed F (fun _ => rfl) (fun _ => rfl) rfl (by norm_num) (by norm_num)
      (by norm_num) (by norm_num) h
  case uint16.int n =>
    exact scalarTrips_unsigned F (fun _ => rfl) (fun _ => rfl) rfl (by norm_num) (by norm_num) h
  case int16.int n =>
    exact scalarTrips_signed F (fun _ => rfl) (fun _ => rfl) rfl (by norm_num) (by norm_num)
      (by norm_num) (by norm_num) h
  case uint32.int n =>
    exact scalarTrips_unsigned F (fun _ => rfl) (fun _ => rfl) rfl (by norm_num) (by norm_num) h
  case int32.int n =>
    exact scalarTrips_signed F (fun _ => rfl) (fun _ => rfl) rfl (by norm_num) (by norm_num)
      (by norm_num) (by norm_num) h
  case uint64.int n =>
    exact scalarTrips_unsigned F (fun _ => rfl) (fun _ => rfl) rfl (by norm_num) (by norm_num) h
  case int64.int n =>
    exact scalarTrips_signed F (fun _ => rfl) (fun _ => rfl) rfl (by norm_num) (by norm_num)
      (by norm_num) (by norm_num) h
  case float16.float x =>
    obtain ⟨n, hn, hx⟩ := h
    refine ⟨endian.write 2 n.toNat, ?_, by simp [Scalar.size], fun rest => ?_⟩
    · simp only [packScalar, asFloat, ok_bind, hn, narrow_some]
      rfl
    · rw [unpackScalar, Endian.read_write_bitVec endian (by norm_num), hx]
  case float32.float x =>
    obtain ⟨n, hn, hx⟩ := h
    refine ⟨endian.write 4 n.toNat, ?_, by simp [Scalar.size], fun rest => ?_⟩
    · simp only [packScalar, asFloat, ok_bind, hn, narrow_some]
      rfl
    · rw [unpackScalar, Endian.read_write_bitVec endian (by norm_num), hx]
  case float64.float x =>
    refine ⟨endian.write 8 x.toNat, rfl, by simp [Scalar.size], fun rest => ?_⟩
    rw [unpackScalar, Endian.read_write_bitVec endian (by norm_num)]
  case complex64.complex x y =>
    obtain ⟨⟨n, hn, hx⟩, ⟨m, hm, hy⟩⟩ := h
    refine ⟨endian.write 4 n.toNat ++ endian.write 4 m.toNat, ?_, by simp [Scalar.size],
      fun rest => ?_⟩
    · simp only [packScalar, asComplex, ok_bind, hn, hm, narrow_some]
      rfl
    · rw [unpackScalar, List.append_assoc, List.drop_left' (by simp),
        Endian.read_write_bitVec endian (by norm_num),
        Endian.read_write_bitVec endian (by norm_num), hx, hy]
  case complex128.complex x y =>
    refine ⟨endian.write 8 x.toNat ++ endian.write 8 y.toNat, rfl, by simp [Scalar.size],
      fun rest => ?_⟩
    rw [unpackScalar, List.append_assoc, List.drop_left' (by simp),
      Endian.read_write_bitVec endian (by norm_num),
      Endian.read_write_bitVec endian (by norm_num)]

theorem bytes_roundTrips {length : Nat} {data : List UInt8} (h : data.length = length) (endian : Endian) :
    RoundTrips (packNode F (.bytes length) (.bytes data) endian)
      (unpackNode F (.bytes length) endian) length (.bytes data) := by
  subst h
  refine ⟨data, fun out => ?_, rfl, fun before after => ?_⟩
  · simp [packNode, packBytes, Functor.map, Except.map]
  · simp only [unpackNode, List.append_assoc, List.drop_left, List.take_left]

/-! ## 8. Mappings -/

theorem setItem_of_notMem : ∀ (record : List (String × Value)) (name : String) (x : Value),
    name ∉ record.map Prod.fst → setItem record name x = record ++ [(name, x)]
  | [], _, _, _ => rfl
  | (key, old) :: rest, name, x, h => by
      simp only [List.map_cons, List.mem_cons, not_or] at h
      rw [setItem, if_neg (fun hk => h.1 hk.symm), setItem_of_notMem rest name x h.2]
      rfl

theorem setItem_of_lookup : ∀ (record : List (String × Value)) (name : String) (x : Value),
    record.lookup name = some x → setItem record name x = record
  | [], _, _, h => by simp at h
  | (key, old) :: rest, name, x, h => by
      rw [List.lookup_cons] at h
      by_cases hk : key = name
      · subst hk
        simp only [beq_self_eq_true, Option.some.injEq] at h
        rw [setItem, if_pos rfl, h]
      · have hne : (name == key) = false := by simpa using fun he : name = key => hk he.symm
        simp only [hne] at h
        rw [setItem, if_neg hk, setItem_of_lookup rest name x h]

/-- **One more field of the mapping**: when the keys are `seen` and then the new ones, setting
    the next field moves from the mapping of `seen` to the mapping with that name. -/
theorem setItem_take {record : List (String × Value)} {seen names : List String} {name : String}
    {x : Value} (hkeys : record.map Prod.fst = seen ++ names) (hlookup : record.lookup name = some x) :
    (name ∈ seen → setItem (record.take seen.length) name x = record.take seen.length) ∧
    (name ∉ seen → ∀ later, names = name :: later →
      setItem (record.take seen.length) name x = record.take (seen ++ [name]).length) := by
  have hseen : (record.take seen.length).map Prod.fst = seen := by
    rw [List.map_take, hkeys, List.take_left]
  have hsplit := List.take_append_drop seen.length record
  refine ⟨fun hmem => setItem_of_lookup _ _ _ ?_, fun hmem later hnames => ?_⟩
  · rw [← hsplit, List.lookup_append] at hlookup
    have hsome : ((record.take seen.length).lookup name).isSome := by
      rw [List.lookup_isSome_iff]
      rw [← hseen] at hmem
      obtain ⟨p, hp, rfl⟩ := List.mem_map.mp hmem
      exact ⟨p, hp, by simp⟩
    obtain ⟨y, hy⟩ := Option.isSome_iff_exists.mp hsome
    rw [hy, Option.some_or, Option.some.injEq] at hlookup
    rw [hy, hlookup]
  · have hdrop : (record.drop seen.length).map Prod.fst = name :: later := by
      rw [List.map_drop, hkeys, List.drop_left, hnames]
    obtain ⟨p, rest, hrest⟩ : ∃ p rest, record.drop seen.length = p :: rest := by
      cases hd : record.drop seen.length with
      | nil => rw [hd] at hdrop; simp at hdrop
      | cons p rest => exact ⟨p, rest, rfl⟩
    rw [hrest, List.map_cons, List.cons.injEq] at hdrop
    have hnone : (record.take seen.length).lookup name = none := by
      rw [List.lookup_eq_none_iff]
      intro q hq
      have : q.1 ∈ seen := by rw [← hseen]; exact List.mem_map_of_mem hq
      simpa using fun he : name = q.1 => hmem (he ▸ this)
    have hp : p = (name, x) := by
      rw [← hsplit, List.lookup_append, hnone, Option.none_or, hrest] at hlookup
      obtain ⟨key, y⟩ := p
      obtain rfl : key = name := hdrop.1
      simpa using hlookup
    rw [setItem_of_notMem _ _ _ (by rw [hseen]; exact hmem), List.length_append,
      List.length_singleton, List.take_add, hrest, hp]
    rfl

/-! ## 9. Unpacking inverts packing -/

theorem repeat_roundTrips (element : Spec) (endian : Endian) (helem : ∀ v, element.conforms F v = true →
      RoundTrips (packInto F element v endian) (unpackFrom F element endian) element.size v) :
    ∀ items : List Value, (∀ v ∈ items, element.conforms F v = true) →
      RoundTrips (fun out => items.foldlM (fun out item => packInto F element item endian out) out)
        (unpackRepeat (unpackFrom F element endian) items.length) (element.size * items.length) items
  | [], _ => ⟨[], fun out => by simp [pure, Except.pure], by simp, Reads.pure []⟩
  | item :: items, h => by
      obtain ⟨xs, hpack, hlen, hreads⟩ := helem item (h item (List.mem_cons_self ..))
      obtain ⟨ys, hpack', hlen', hreads'⟩ := repeat_roundTrips element endian helem items
        fun v hv => h v (List.mem_cons_of_mem _ hv)
      refine ⟨xs ++ ys, fun out => ?_, ?_, ?_⟩
      · have hrest := hpack' (out ++ xs)
        simp only at hrest ⊢
        rw [List.foldlM_cons, hpack, ok_bind, hrest, List.append_assoc]
      · rw [List.length_append, hlen, hlen', List.length_cons]
        ring
      · exact Reads.bind hreads (k := fun v data offset =>
          (unpackRepeat (unpackFrom F element endian) items.length data offset).map
            fun p => (v :: p.1, p.2)) (Reads.map (item :: ·) hreads')

mutual

theorem spec_roundTrips : ∀ (spec : Spec) (endian : Endian) (value : Value), spec.conforms F value = true →
      RoundTrips (packInto F spec value endian) (unpackFrom F spec endian) spec.size value
  | ⟨node, order, paddingBefore, paddingAfter⟩, endian, value, h => by
      obtain ⟨bytes, hpack, hlen, hreads⟩ := node_roundTrips node endian value h
      refine ⟨List.replicate paddingBefore 0 ++ (bytes ++ List.replicate paddingAfter 0),
        fun out => ?_, ?_, ?_⟩
      · rw [packInto, hpack, ok_bind]
        simp only [List.append_assoc]
        rfl
      · simp only [List.length_append, List.length_replicate, hlen, Spec.size]
        omega
      · have hcheck := (hreads.guarded shortBuffer).trail (List.replicate paddingAfter 0)
        have hskip := hcheck.skip (List.replicate paddingBefore 0)
        simp only [List.length_replicate, hlen] at hskip
        intro before after
        rw [← hskip before after, unpackFrom]
        simp only
        split <;> rfl

theorem node_roundTrips : ∀ (node : Node) (endian : Endian) (value : Value), node.conforms F value = true →
      RoundTrips (packNode F node value endian) (unpackNode F node endian) node.size value
  | .bytes length, endian, value, h => by
      cases value with
      | bytes data => exact bytes_roundTrips F (by simpa [Node.conforms] using h) endian
      | _ => simp [Node.conforms] at h
  | .scalar kind, endian, value, h => by
      obtain ⟨bytes, hpack, hlen, hread⟩ := scalar_roundTrips F kind value endian
        (by simpa only [Node.conforms] using h)
      refine ⟨bytes, fun out => ?_, hlen, fun before after => ?_⟩
      · rw [packNode, hpack]
        rfl
      · simp only [unpackNode, List.append_assoc, List.drop_left, hread, hlen]
  | .tuple values, endian, value, h => by
      cases value with
      | tuple items =>
        obtain ⟨bytes, hpack, hlen, hreads⟩ := tuple_roundTrips values endian items
          (by simpa only [Node.conforms] using h)
        exact ⟨bytes, fun out => by rw [packNode]; exact hpack out, hlen,
          by rw [unpackNode]; exact hreads.map Value.tuple⟩
      | _ => simp [Node.conforms] at h
  | .sequence element length, endian, value, h => by
      cases value with
      | tuple items =>
        simp only [Node.conforms, Bool.and_eq_true, beq_iff_eq, List.all_eq_true] at h
        obtain ⟨rfl, hall⟩ := h
        obtain ⟨bytes, hpack, hlen, hreads⟩ := repeat_roundTrips F element endian
          (fun v hv => spec_roundTrips element endian v hv) items hall
        exact ⟨bytes, fun out => by rw [packNode]; exact hpack out, hlen,
          by rw [unpackNode]; exact hreads.map Value.tuple⟩
      | _ => simp [Node.conforms] at h
  | .model fields, endian, value, h => by
      cases value with
      | model record =>
        simp only [Node.conforms, Bool.and_eq_true, beq_iff_eq] at h
        obtain ⟨bytes, hpack, hlen, hreads⟩ := fields_roundTrip fields endian record []
          (by simpa using h.1) h.2
        exact ⟨bytes, fun out => by rw [packNode]; exact hpack out, hlen,
          by rw [unpackNode]; exact hreads.map Value.model⟩
      | _ => simp [Node.conforms] at h

theorem tuple_roundTrips : ∀ (values : List Spec) (endian : Endian) (items : List Value),
    tupleConforms F values items = true →
      RoundTrips (packTuple F values items endian) (unpackTuple F values endian) (sizes values) items
  | [], endian, items, h => by
      cases items with
      | nil => exact ⟨[], fun out => by simp [packTuple], rfl, Reads.pure []⟩
      | cons item items => simp [tupleConforms] at h
  | child :: values, endian, items, h => by
      cases items with
      | nil => simp [tupleConforms] at h
      | cons item items =>
        rw [tupleConforms, Bool.and_eq_true] at h
        obtain ⟨xs, hpack, hlen, hreads⟩ := spec_roundTrips child endian item h.1
        obtain ⟨ys, hpack', hlen', hreads'⟩ := tuple_roundTrips values endian items h.2
        refine ⟨xs ++ ys, fun out => ?_, ?_, ?_⟩
        · rw [packTuple, hpack, ok_bind, hpack', List.append_assoc]
        · rw [List.length_append, hlen, hlen', sizes]
        · rw [unpackTuple]
          exact Reads.bind hreads (k := fun v data offset =>
            (unpackTuple F values endian data offset).map fun p => (v :: p.1, p.2))
            (Reads.map (item :: ·) hreads')

/-- The fields after `seen`, into the mapping of `seen`. -/
theorem fields_roundTrip : ∀ (fields : List (String × Spec)) (endian : Endian)
    (record : List (String × Value)) (seen : List String),
    record.map Prod.fst = seen ++ firstNames seen fields → fieldsConform F fields record = true →
      RoundTrips (packFields F fields (.model record) endian)
        (unpackFields F fields endian (record.take seen.length)) (fieldSizes fields) record
  | [], endian, record, seen, hkeys, h => by
      have htake : record.take seen.length = record := by
        rw [List.take_of_length_le]
        have := congrArg List.length hkeys
        simp only [firstNames, List.append_nil, List.length_map] at this
        omega
      rw [htake]
      exact ⟨[], fun out => by simp [packFields], rfl, Reads.pure record⟩
  | (name, child) :: fields, endian, record, seen, hkeys, h => by
      rw [fieldsConform, Bool.and_eq_true, Option.any_eq_true_iff_get] at h
      obtain ⟨⟨hsome, hchild⟩, hrest⟩ := h
      obtain ⟨x, hx⟩ := Option.isSome_iff_exists.mp hsome
      simp only [hx, Option.get_some] at hchild
      obtain ⟨xs, hpack, hlen, hreads⟩ := spec_roundTrips child endian x hchild
      -- the mapping after this field, whether its name is new or not
      obtain ⟨seen', hkeys', hset⟩ : ∃ seen', record.map Prod.fst =
          seen' ++ firstNames seen' fields ∧
          setItem (record.take seen.length) name x = record.take seen'.length := by
        obtain ⟨hold, hnew⟩ := setItem_take hkeys hx
        by_cases hmem : name ∈ seen
        · exact ⟨seen, by rw [hkeys, firstNames, if_pos hmem], hold hmem⟩
        · refine ⟨seen ++ [name], ?_, hnew hmem _ (by rw [firstNames, if_neg hmem])⟩
          rw [hkeys, firstNames, if_neg hmem, List.append_assoc, List.singleton_append]
      obtain ⟨ys, hpack', hlen', hreads'⟩ := fields_roundTrip fields endian record seen' hkeys' hrest
      refine ⟨xs ++ ys, fun out => ?_, ?_, ?_⟩
      · rw [packFields, Value.getattr, hx]
        simp only [ok_bind]
        rw [hpack, ok_bind, hpack', List.append_assoc]
      · rw [List.length_append, hlen, hlen', fieldSizes]
      · rw [unpackFields]
        refine Reads.bind hreads (k := fun v =>
          unpackFields F fields endian (setItem (record.take seen.length) name v)) ?_
        rw [hset]
        exact hreads'

end

/-- **Unpacking inverts packing.** Packing a value its spec describes succeeds and appends
    exactly `spec.size` bytes; wherever those bytes stand in a buffer, unpacking there returns
    the value and the offset right behind them. -/
theorem unpackFrom_packInto (spec : Spec) (endian : Endian) (value : Value)
    (h : spec.conforms F value = true) :
    ∃ bytes : List UInt8, bytes.length = spec.size ∧
      (∀ out, packInto F spec value endian out = .ok (out ++ bytes)) ∧
      ∀ before after, unpackFrom F spec endian (before ++ bytes ++ after) before.length =
        .ok (value, before.length + spec.size) := by
  obtain ⟨bytes, hpack, hlen, hreads⟩ := spec_roundTrips F spec endian value h
  refine ⟨bytes, hlen, hpack, fun before after => ?_⟩
  rw [hreads before after, hlen]

end Engine

/-- The conversions at the numbers zero and one. -/
def zeroAndOne : Floats where
  narrow16 x := if x = 0 then some 0 else if x = 0x3ff0000000000000 then some 0x3c00 else none
  widen16 n := if n = 0x3c00 then 0x3ff0000000000000 else 0
  narrow32 x :=
    if x = 0 then some 0 else if x = 0x3ff0000000000000 then some 0x3f800000 else none
  widen32 n := if n = 0x3f800000 then 0x3ff0000000000000 else 0
  ofInt n := if n = 0 then some 0 else if n = 1 then some 0x3ff0000000000000 else none
  zero16 := by decide
  zero32 := by decide

/-- A padded model of a padded pair, a float and a byte string. -/
def nestedSpec : Spec :=
  { node := .model
      [("pair", { node := .tuple [{ node := .scalar .int16, paddingAfter := 1 },
          { node := .scalar .uint8 }], paddingBefore := 2 }),
       ("gain", { node := .scalar .float32 }),
       ("tags", { node := .sequence { node := .bytes 2, paddingBefore := 1 } 2 })]
    paddingBefore := 1
    paddingAfter := 3 }

def nestedValue : Value :=
  .model [("pair", .tuple [.int (-2), .int 255]), ("gain", .float 0x3ff0000000000000),
    ("tags", .tuple [.bytes [1, 2], .bytes [3, 4]])]

theorem unpackFrom_packInto_nested : nestedSpec.conforms zeroAndOne nestedValue = true ∧
    ∃ bytes : List UInt8, bytes.length = nestedSpec.size ∧
      (∀ out, packInto zeroAndOne nestedSpec nestedValue .big out = .ok (out ++ bytes)) ∧
      ∀ before after,
        unpackFrom zeroAndOne nestedSpec .big (before ++ bytes ++ after) before.length =
          .ok (nestedValue, before.length + nestedSpec.size) :=
  ⟨by decide, unpackFrom_packInto zeroAndOne nestedSpec .big nestedValue (by decide)⟩

end Ceres.Data.Binary
