/-
  File:      Ceres/Data/Struct.lean
  Subject:   PYTHON'S `struct` MODULE, as far as the packing schemas use it.

  Formats are lists of counted symbols, in an explicit byte order with standard sizes and no
  alignment.

  * `structPack`, `structUnpackFrom`, `calcsize` -- the module;
  * `padItems`, `compactFormat` -- how a schema writes its padding and shortens its format;
  * `structPackScalar_eq`, `structUnpackScalar_eq` -- a scalar is packed and unpacked as the native
    engine does it.
-/
import Ceres.Data.Binary

namespace Ceres.Data.Binary

open Ceres.Library

/-! ## 1. Formats, packing and unpacking -/

/-- A symbol of a format: padding, a byte string or a scalar. -/
inductive Symbol where
  | x
  | s
  | scalar (kind : Scalar)
  deriving DecidableEq, Repr

/-- A symbol and its count. For `s` the count is the length of one field. -/
structure FormatItem where
  count : Nat
  symbol : Symbol
  deriving DecidableEq, Repr

def Symbol.size : Symbol → Nat
  | x | s => 1
  | scalar kind => kind.size

/-- `struct.calcsize`. -/
def calcsize (format : List FormatItem) : Nat :=
  (format.map fun item => item.count * item.symbol.size).sum

section Struct

variable (F : Floats)

/-- The bytes of a word, least significant first. -/
def structWord (width : Nat) (n : Int) : List UInt8 :=
  (List.range width).map fun i => UInt8.ofNat (n / 256 ^ i % 256).toNat

def structOrder (endian : Endian) (bytes : List UInt8) : List UInt8 :=
  match endian with
  | .little => bytes
  | .big => bytes.reverse

/-- `__index__` of a value. -/
def Value.index : Value → Option Int
  | .bool b => some b.toInt
  | .int n => some n
  | _ => none

/-- An integer in `low ≤ n < high`. -/
def structInteger (width : Nat) (low high : Int) (value : Value) (endian : Endian) :
    Option (List UInt8) :=
  value.index.bind fun n =>
    if low ≤ n ∧ n < high then some (structOrder endian (structWord width n)) else none

/-- `__float__` of a value. -/
def Value.double : Value → Option (BitVec 64)
  | .float bits => some bits
  | .int n => F.ofInt n
  | .bool b => F.ofInt b.toInt
  | _ => none

/-- `__complex__` of a value. -/
def Value.complexParts : Value → Option (BitVec 64 × BitVec 64)
  | .complex real imaginary => some (real, imaginary)
  | value => (value.double F).map fun real => (real, 0)

/-- One scalar of a format. -/
def structPackScalar (kind : Scalar) (value : Value) (endian : Endian) : Option (List UInt8) :=
  let word {bits : Nat} (n : BitVec bits) := structOrder endian (structWord (bits / 8) n.toNat)
  match kind with
  | .bool => some [if value.isTruthy then 1 else 0]
  | .uint8 | .uint16 | .uint32 | .uint64 =>
    structInteger kind.size 0 (2 ^ (8 * kind.size)) value endian
  | .int8 | .int16 | .int32 | .int64 =>
    structInteger kind.size (-(2 ^ (8 * kind.size - 1))) (2 ^ (8 * kind.size - 1)) value endian
  | .float16 => (value.double F).bind fun x => (F.narrow16 x).map word
  | .float32 => (value.double F).bind fun x => (F.narrow32 x).map word
  | .float64 => (value.double F).map word
  | .complex64 => (value.complexParts F).bind fun (x, y) =>
    (F.narrow32 x).bind fun real => (F.narrow32 y).map fun imaginary =>
      word real ++ word imaginary
  | .complex128 => (value.complexParts F).map fun (x, y) => word x ++ word y

/-- `count` scalars off the front of the arguments. -/
def structPackScalars (kind : Scalar) (endian : Endian) : Nat → List Value →
    Option (List UInt8 × List Value)
  | 0, arguments => some ([], arguments)
  | _ + 1, [] => none
  | count + 1, value :: arguments => do
    let bytes ← structPackScalar F kind value endian
    let (rest, arguments) ← structPackScalars kind endian count arguments
    return (bytes ++ rest, arguments)

/-- `Struct.pack`. -/
def structPack (endian : Endian) : List FormatItem → List Value → Option (List UInt8)
  | [], [] => some []
  | [], _ :: _ => none
  | ⟨count, .x⟩ :: format, arguments =>
    (structPack endian format arguments).map (List.replicate count 0 ++ ·)
  | ⟨count, .s⟩ :: format, .bytes data :: arguments =>
    (structPack endian format arguments).map
      (data.take count ++ List.replicate (count - data.length) 0 ++ ·)
  | ⟨_, .s⟩ :: _, _ => none
  | ⟨count, .scalar kind⟩ :: format, arguments => do
    let (bytes, arguments) ← structPackScalars F kind endian count arguments
    return bytes ++ (← structPack endian format arguments)

/-- The word of bytes given most significant first. -/
def structNumber (bytes : List UInt8) : Nat := bytes.foldl (fun n b => n * 256 + b.toNat) 0

def structUnpackScalar (kind : Scalar) (front : List UInt8) (endian : Endian) : Value :=
  -- the number in the `width` bytes from `start` on
  let number (start width : Nat) : Nat :=
    structNumber (structOrder endian ((front.drop start).take width)).reverse
  let signed : Int :=
    let n := number 0 kind.size
    if n < 2 ^ (8 * kind.size - 1) then n else n - 2 ^ (8 * kind.size)
  match kind with
  | .bool => .bool (front.headD 0 != 0)
  | .uint8 | .uint16 | .uint32 | .uint64 => .int (number 0 kind.size)
  | .int8 | .int16 | .int32 | .int64 => .int signed
  | .float16 => .float (F.widen16 (BitVec.ofNat 16 (number 0 2)))
  | .float32 => .float (F.widen32 (BitVec.ofNat 32 (number 0 4)))
  | .float64 => .float (BitVec.ofNat 64 (number 0 8))
  | .complex64 =>
    .complex (F.widen32 (BitVec.ofNat 32 (number 0 4))) (F.widen32 (BitVec.ofNat 32 (number 4 4)))
  | .complex128 => .complex (BitVec.ofNat 64 (number 0 8)) (BitVec.ofNat 64 (number 8 8))

def structUnpackItems (endian : Endian) : List FormatItem → List UInt8 → List Value
  | [], _ => []
  | ⟨count, .x⟩ :: format, front => structUnpackItems endian format (front.drop count)
  | ⟨count, .s⟩ :: format, front =>
    .bytes (front.take count) :: structUnpackItems endian format (front.drop count)
  | ⟨count, .scalar kind⟩ :: format, front =>
    ((List.range count).map fun i =>
      structUnpackScalar F kind (front.drop (i * kind.size)) endian) ++
      structUnpackItems endian format (front.drop (count * kind.size))

/-- `Struct.unpack_from`: the whole format must fit behind the offset. -/
def structUnpackFrom (endian : Endian) (format : List FormatItem) (data : List UInt8)
    (offset : Nat) : Option (List Value) :=
  if data.length < offset + calcsize format then none
  else some (structUnpackItems F endian format (data.drop offset))

end Struct

/-! ## 2. Padding and compacting -/

/-- Padding as a format: nothing for zero bytes. -/
def padItems (count : Nat) : List FormatItem := if count = 0 then [] else [⟨count, .x⟩]

/-- The loop of `_compact_format`, the pairs found so far in reverse: adjacent items of one symbol
    merge, except byte strings. -/
def compactLoop : List FormatItem → List FormatItem → List FormatItem
  | pairs, [] => pairs.reverse
  | [], item :: format => compactLoop [item] format
  | last :: pairs, item :: format =>
    if item.symbol ≠ .s ∧ last.symbol = item.symbol then
      compactLoop (⟨last.count + item.count, item.symbol⟩ :: pairs) format
    else compactLoop (item :: last :: pairs) format

def compactFormat (format : List FormatItem) : List FormatItem := compactLoop [] format

theorem calcsize_append (f g : List FormatItem) : calcsize (f ++ g) = calcsize f + calcsize g := by
  simp [calcsize]

theorem calcsize_cons (item : FormatItem) (f : List FormatItem) :
    calcsize (item :: f) = item.count * item.symbol.size + calcsize f := by
  simp [calcsize]

theorem calcsize_padItems (n : Nat) : calcsize (padItems n) = n := by
  unfold padItems
  split
  · rename_i h
    rw [h]
    rfl
  · simp [calcsize, Symbol.size]

theorem calcsize_compactLoop : ∀ (format pairs : List FormatItem),
    calcsize (compactLoop pairs format) = calcsize pairs + calcsize format
  | [], pairs => by
      rw [compactLoop, calcsize, List.map_reverse, List.sum_reverse]
      rfl
  | item :: format, [] => by
      rw [compactLoop, calcsize_compactLoop format, calcsize_cons, calcsize_cons]
      simp [calcsize]
  | item :: format, last :: pairs => by
      rw [compactLoop]
      split
      · rename_i h
        rw [calcsize_compactLoop format, calcsize_cons, calcsize_cons, calcsize_cons, h.2]
        simp only
        ring
      · rw [calcsize_compactLoop format, calcsize_cons]
        simp only [calcsize_cons]
        ring

/-! ## 3. Scalars, by `struct` and natively -/

theorem structWord_eq : ∀ (width : Nat) (n : Int) (m : Nat), (m : Int) ≡ n [ZMOD 256 ^ width] →
    structWord width n = toLe width m
  | 0, _, _, _ => rfl
  | width + 1, n, m, h => by
      have hhead : UInt8.ofNat (n % 256).toNat = UInt8.ofNat m := by
        have hmod : (m : Int) ≡ n [ZMOD 256] := h.of_dvd ⟨256 ^ width, by ring⟩
        have heq : (n % 256).toNat = m % 256 := by
          unfold Int.ModEq at hmod
          omega
        rw [heq]
        exact UInt8.toNat_inj.mp (by simp)
      have htail : ((m / 256 : Nat) : Int) ≡ n / 256 [ZMOD 256 ^ width] := by
        obtain ⟨k, hk⟩ := h.dvd
        have hn : n = m + 256 * (256 ^ width * k) := by
          rw [pow_succ'] at hk
          linear_combination hk
        rw [hn, Int.add_mul_ediv_left _ _ (by norm_num)]
        exact Int.modEq_iff_dvd.mpr ⟨k, by push_cast; ring⟩
      have ih := structWord_eq width (n / 256) (m / 256) htail
      have hdiv : ∀ i, n / 256 ^ (i + 1) = n / 256 / 256 ^ i := fun i => by
        rw [pow_succ', Int.ediv_ediv_of_nonneg (by norm_num)]
      rw [toLe, ← ih, structWord, structWord, List.range_succ_eq_map, List.map_cons, List.map_map]
      refine List.cons_eq_cons.mpr ⟨by simpa using hhead, ?_⟩
      refine List.map_congr_left fun i _ => ?_
      simp only [Function.comp_apply, Nat.succ_eq_add_one, hdiv]

theorem structOrder_toLe (endian : Endian) (width n : Nat) :
    structOrder endian (toLe width n) = endian.write width n := by
  cases endian <;> rfl

theorem structInteger_eq {width : Nat} {low high n : Int} (endian : Endian) (h : low ≤ n ∧ n < high) :
    structInteger width low high (.int n) endian =
      some (endian.write width (BitVec.ofInt (8 * width) n).toNat) := by
  have hword : structWord width n = toLe width (BitVec.ofInt (8 * width) n).toNat := by
    refine structWord_eq width n _ ?_
    have hpos : (0 : Int) ≤ n % (2 ^ (8 * width) : Nat) := Int.emod_nonneg _ (by positivity)
    rw [BitVec.toNat_ofInt, Int.toNat_of_nonneg hpos, ← pow_bits]
    push_cast
    exact Int.mod_modEq _ _
  simp only [structInteger, Value.index, Option.bind_some, if_pos h, hword, structOrder_toLe]

theorem structWord_bitVec (endian : Endian) {bits : Nat} (n : BitVec bits) :
    structOrder endian (structWord (bits / 8) n.toNat) = endian.write (bits / 8) n.toNat := by
  rw [structWord_eq _ _ _ rfl, structOrder_toLe]

section Leaves

variable (F : Floats)

/-- **A scalar packs alike**, for the values of its kind. -/
theorem structPackScalar_eq (kind : Scalar) (value : Value) (endian : Endian) (h : kind.conforms F value = true) :
    structPackScalar F kind value endian = (packScalar F kind value endian).toOption := by
  have hint : ∀ {width : Nat} {low high low' high' n : Int} {name : String},
      -(2 ^ 127) ≤ low → high < 2 ^ 127 → low' = low → high' = high + 1 → low ≤ n ∧ n ≤ high →
      structInteger width low' high' (.int n) endian =
        (packInteger width low high name (.int n) endian).toOption := by
    intro width low high low' high' n name hlow hhigh hl hh hn
    rw [structInteger_eq endian (by omega), packInteger_ok hlow hhigh hn]
    rfl
  cases kind <;> cases value <;> simp only [Scalar.conforms, Bool.false_eq_true,
    decide_eq_true_eq, Bool.and_eq_true, survives_iff] at h
  case bool.bool b => rfl
  case float16.float x =>
    obtain ⟨n, hn, -⟩ := h
    simp only [structPackScalar, Value.double, Option.bind_some, hn, Option.map_some, packScalar,
      asFloat, ok_bind, narrow_some]
    rw [structWord_bitVec]
    rfl
  case float32.float x =>
    obtain ⟨n, hn, -⟩ := h
    simp only [structPackScalar, Value.double, Option.bind_some, hn, Option.map_some, packScalar,
      asFloat, ok_bind, narrow_some]
    rw [structWord_bitVec]
    rfl
  case float64.float x =>
    simp only [structPackScalar, Value.double, Option.map_some, packScalar, asFloat, ok_bind]
    rw [structWord_bitVec]
    rfl
  case complex64.complex x y =>
    obtain ⟨⟨n, hn, -⟩, ⟨m, hm, -⟩⟩ := h
    simp only [structPackScalar, Value.complexParts, Option.bind_some, hn, hm, Option.map_some,
      packScalar, asComplex, ok_bind, narrow_some]
    rw [structWord_bitVec, structWord_bitVec]
    rfl
  case complex128.complex x y =>
    simp only [structPackScalar, Value.complexParts, Option.map_some, packScalar, asComplex,
      ok_bind]
    rw [structWord_bitVec, structWord_bitVec]
    rfl
  all_goals exact hint (by norm_num) (by norm_num) (by norm_num [Scalar.size]) (by norm_num [Scalar.size]) h

theorem structNumber_reverse : ∀ bytes : List UInt8, structNumber bytes.reverse = ofLe bytes
  | [] => rfl
  | b :: rest => by
      have ih := structNumber_reverse rest
      simp only [structNumber] at ih ⊢
      rw [List.reverse_cons, List.foldl_append, ih, ofLe]
      simp only [List.foldl_cons, List.foldl_nil]
      ring

theorem structNumber_order (endian : Endian) (width : Nat) (front : List UInt8) :
    structNumber (structOrder endian (front.take width)).reverse = endian.read width front := by
  cases endian with
  | little => exact structNumber_reverse _
  | big => exact structNumber_reverse _

/-- The sign of a word, by its top half and by two's complement. -/
theorem asSigned_eq {width n : Nat} (hpos : 0 < width) (h : n < 256 ^ width) :
    (if n < 2 ^ (8 * width - 1) then (n : Int) else n - 2 ^ (8 * width)) = asSigned width n := by
  rw [pow_bits] at h
  have hhalf : 2 ^ (8 * width) = 2 * 2 ^ (8 * width - 1) := by
    rw [← pow_succ']
    congr 1
    omega
  rw [asSigned, BitVec.toInt_eq_toNat_cond, BitVec.toNat_ofNat, Nat.mod_eq_of_lt h]
  by_cases hn : n < 2 ^ (8 * width - 1)
  · rw [if_pos hn, if_pos (by omega)]
  · rw [if_neg hn, if_neg (by omega)]
    push_cast
    rfl

/-- **A scalar unpacks alike.** -/
theorem structUnpackScalar_eq (kind : Scalar) (front : List UInt8) (endian : Endian) :
    structUnpackScalar F kind front endian = unpackScalar F kind front endian := by
  have hsigned : ∀ width, 0 < width →
      (if endian.read width front < 2 ^ (8 * width - 1) then (endian.read width front : Int)
        else endian.read width front - 2 ^ (8 * width)) =
      asSigned width (endian.read width front) :=
    fun width hpos => asSigned_eq hpos (endian.read_lt width front)
  cases kind <;>
    simp only [structUnpackScalar, unpackScalar, structNumber_order, List.drop_zero, Scalar.size]
  case int8 => rw [← hsigned 1 (by norm_num)]
  case int16 => rw [← hsigned 2 (by norm_num)]
  case int32 => rw [← hsigned 4 (by norm_num)]
  case int64 => rw [← hsigned 8 (by norm_num)]

theorem leaf_format (before after : Nat) {item : FormatItem} (h : item.symbol ≠ .x) :
    compactFormat (padItems before ++ [item] ++ padItems after) =
      padItems before ++ ([item] ++ padItems after) := by
  have h' : (Symbol.x = item.symbol) = False := eq_false fun he => h he.symm
  have h'' : (item.symbol = Symbol.x) = False := eq_false h
  unfold padItems compactFormat
  split <;> split <;> simp [compactLoop, h', h'']

theorem structPack_padItems (endian : Endian) (n : Nat) (format : List FormatItem) (arguments : List Value) :
    structPack F endian (padItems n ++ format) arguments =
      (structPack F endian format arguments).map (List.replicate n 0 ++ ·) := by
  unfold padItems
  split
  · rename_i h
    rw [h]
    simp
  · rw [List.singleton_append, structPack]

theorem structPack_trailing (endian : Endian) (n : Nat) :
    structPack F endian (padItems n) [] = some (List.replicate n 0) := by
  have h := structPack_padItems F endian n [] []
  rw [List.append_nil] at h
  rw [h, structPack]
  simp

theorem structUnpack_padItems (endian : Endian) (n : Nat) (format : List FormatItem) (front : List UInt8) :
    structUnpackItems F endian (padItems n ++ format) front =
      structUnpackItems F endian format (front.drop n) := by
  unfold padItems
  split
  · rename_i h
    rw [h]
    simp
  · rw [List.singleton_append, structUnpackItems]

end Leaves

end Ceres.Data.Binary
