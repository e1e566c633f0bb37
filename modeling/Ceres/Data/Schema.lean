/-
  File:      Ceres/Data/Schema.lean
  Subject:   THE PACKING SCHEMAS (`ceres/data/binary.py`).

  A packing schema runs natively when `_native_spec` compiles it and in Python otherwise: leaves
  through `struct`, composites by concatenating what their children pack. A `packer` or a
  `validator` on a nested node moves every composite above it to the Python path.

  * `Schema.format`, `Schema.size` -- the `struct` format and its size;
  * `nativeSpec` -- the compilation, `Schema.layout` the program it compiles to
    (`nativeSpec_eq`), of the same size (`size_eq`);
  * `Schema.pyPack`, `Schema.pyUnpack` -- the Python path, whose children dispatch again;
    `Schema.pack`, `Schema.unpack` -- the entry points;
  * `leaf_structPack`, `leaf_structUnpack` -- a leaf's struct against the native engine.
-/
import Ceres.Data.Struct

namespace Ceres.Data.Binary

open Ceres.Library

/-! ## 1. Schemas -/

mutual

/-- What a schema class adds to the base: the leaves, and the composites with their children.
    A sequence has its element and length (without them it neither compiles nor unpacks). -/
inductive Shape where
  | bytes (length : Nat)
  | scalar (kind : Scalar)
  | tuple (values : List Schema)
  | sequence (element : Schema) (length : Nat)
  | model (fields : List (String × Schema))

/-- A packing schema; no padding and a padding of `None` are both zero. -/
structure Schema where
  shape : Shape
  order : Option ByteOrder := none
  paddingBefore : Nat := 0
  paddingAfter : Nat := 0
  packer : Option (Value → List UInt8) := none
  validator : Option (Value → Value) := none

end

mutual

/-- The computed `struct` format of a schema. -/
def Schema.format : Schema → List FormatItem
  | ⟨shape, _, paddingBefore, paddingAfter, _, _⟩ =>
    compactFormat (padItems paddingBefore ++ shape.innerFormat ++ padItems paddingAfter)

def Shape.innerFormat : Shape → List FormatItem
  | .bytes length => [⟨length, .s⟩]
  | .scalar kind => [⟨1, .scalar kind⟩]
  | .tuple values => formats values
  | .sequence element length => (List.replicate length element.format).flatten
  | .model fields => fieldFormats fields

def formats : List Schema → List FormatItem
  | [] => []
  | schema :: rest => schema.format ++ formats rest

def fieldFormats : List (String × Schema) → List FormatItem
  | [] => []
  | (_, schema) :: rest => schema.format ++ fieldFormats rest

end

/-- The `size` of a schema: its struct's. -/
def Schema.size (s : Schema) : Nat := calcsize s.format

mutual

/-- Whether a compiled node contains a model anywhere. -/
def Node.containsModel : Node → Bool
  | .bytes _ | .scalar _ => false
  | .tuple values => anyModel values
  | .sequence element _ => element.containsModel
  | .model _ => true

def Spec.containsModel : Spec → Bool
  | ⟨node, _, _, _⟩ => node.containsModel

def anyModel : List Spec → Bool
  | [] => false
  | spec :: rest => spec.containsModel || anyModel rest

end

def Shape.isModel : Shape → Bool
  | .model _ => true
  | _ => false

mutual

/-- The native program of a schema tree, `none` where Python must run it. -/
def nativeSpec (top : Bool) : Schema → Option Spec
  | ⟨shape, order, paddingBefore, paddingAfter, packer, validator⟩ =>
    if packer.isSome || (!top && validator.isSome) then none
    else do
      let node ← nativeNode shape
      if validator.isSome && !shape.isModel && node.containsModel then none
      else return ⟨node, order, paddingBefore, paddingAfter⟩

def nativeNode : Shape → Option Node
  | .bytes length => some (.bytes length)
  | .scalar kind => some (.scalar kind)
  | .tuple values => (nativeSpecs values).map .tuple
  | .sequence element length => (nativeSpec false element).map fun spec => .sequence spec length
  | .model fields => (nativeFields fields).map .model

def nativeSpecs : List Schema → Option (List Spec)
  | [] => some []
  | schema :: rest => do return (← nativeSpec false schema) :: (← nativeSpecs rest)

def nativeFields : List (String × Schema) → Option (List (String × Spec))
  | [] => some []
  | (name, schema) :: rest => do
    return (name, ← nativeSpec false schema) :: (← nativeFields rest)

end

/-! ## 2. The two engines -/

section Engines

variable (F : Floats) (platform : Endian)

/-- The byte order a symbol stands for on this platform. -/
def ByteOrder.endian : ByteOrder → Endian
  | little => .little
  | big => .big
  | native => platform

/-- The order given, else the schema's own, else little-endian. -/
def resolveOrder (given own : Option ByteOrder) : ByteOrder := (given <|> own).getD .little

/-- `PackingProgram.pack`. -/
def programPack (spec : Spec) (value : Value) (order : Option ByteOrder) :
    Except PyError (List UInt8) :=
  packInto F spec value ((resolveOrder order spec.order).endian platform) []

/-- `PackingProgram.unpack`. -/
def programUnpack (spec : Spec) (data : List UInt8) (offset : Nat) (order : Option ByteOrder) :
    Except PyError Value :=
  (unpackFrom F spec ((resolveOrder order spec.order).endian platform) data offset).map Prod.fst

/-- The native program when there is one, the Python path otherwise. -/
def dispatch {α : Type} (program : Option Spec) (native : Spec → α) (python : α) : α :=
  match program with
  | some spec => native spec
  | none => python

/-- Apply a validator, the annotation's own validation left out. -/
def finalize (validator : Option (Value → Value)) (value : Value) : Value :=
  match validator with
  | some f => f value
  | none => value

/-- `_pack` of a leaf: the custom packer, else its struct. -/
def leafPyPack (packer : Option (Value → List UInt8)) (format : List FormatItem)
    (endian : Endian) (value : Value) : Option (List UInt8) :=
  match packer with
  | some f => some (f value)
  | none => structPack F endian format [value]

/-- `_unpack` of a leaf. -/
def leafPyUnpack (format : List FormatItem) (endian : Endian) (data : List UInt8)
    (offset : Nat) : Option Value :=
  (structUnpackFrom F endian format data offset).bind fun packed => packed[0]?

mutual

/-- `_pack`, the Python path. A composite's own padding and packer are not looked at. -/
def Schema.pyPack : Schema → Option ByteOrder → Value → Option (List UInt8)
  | ⟨.bytes length, order, before, after, packer, validator⟩, given, value =>
    leafPyPack F packer (Schema.format ⟨.bytes length, order, before, after, packer, validator⟩)
      ((resolveOrder given order).endian platform) value
  | ⟨.scalar kind, order, before, after, packer, validator⟩, given, value =>
    leafPyPack F packer (Schema.format ⟨.scalar kind, order, before, after, packer, validator⟩)
      ((resolveOrder given order).endian platform) value
  | ⟨.tuple values, order, _, _, _, _⟩, given, value =>
    value.items.toOption.bind fun items => tuplePyPack values (resolveOrder given order) items
  | ⟨.sequence element _, order, _, _, _, _⟩, given, value =>
    value.items.toOption.bind fun items =>
      (items.mapM fun item => dispatch (nativeSpec true element)
        (fun spec => (programPack F platform spec item (resolveOrder given order)).toOption)
        (element.pyPack (resolveOrder given order) item)).map List.flatten
  | ⟨.model fields, order, _, _, _, _⟩, given, value =>
    fieldsPyPack fields (resolveOrder given order) value

/-- `zip` of the items and the schemas. -/
def tuplePyPack : List Schema → ByteOrder → List Value → Option (List UInt8)
  | child :: values, order, item :: items =>
    (dispatch (nativeSpec true child)
      (fun spec => (programPack F platform spec item order).toOption)
      (child.pyPack order item)).bind fun packed =>
        (tuplePyPack values order items).map (packed ++ ·)
  | _, _, _ => some []

def fieldsPyPack : List (String × Schema) → ByteOrder → Value → Option (List UInt8)
  | [], _, _ => some []
  | (name, child) :: fields, order, value =>
    (value.getattr name).toOption.bind fun item =>
      (dispatch (nativeSpec true child)
        (fun spec => (programPack F platform spec item order).toOption)
        (child.pyPack order item)).bind fun packed =>
          (fieldsPyPack fields order value).map (packed ++ ·)

end

/-- `length` elements, `size` bytes apart. -/
def repeatPyUnpack (unpack : Nat → Option Value) (size : Nat) : Nat → Nat → Option (List Value)
  | 0, _ => some []
  | length + 1, offset =>
    (unpack offset).bind fun item =>
      (repeatPyUnpack unpack size length (offset + size)).map (item :: ·)

mutual

/-- `_unpack`, the Python path: children one after another from `offset` on. -/
def Schema.pyUnpack : Schema → Option ByteOrder → List UInt8 → Nat → Option Value
  | ⟨.bytes length, order, before, after, packer, validator⟩, given, data, offset =>
    (leafPyUnpack F (Schema.format ⟨.bytes length, order, before, after, packer, validator⟩)
      ((resolveOrder given order).endian platform) data offset).map (finalize validator)
  | ⟨.scalar kind, order, before, after, packer, validator⟩, given, data, offset =>
    (leafPyUnpack F (Schema.format ⟨.scalar kind, order, before, after, packer, validator⟩)
      ((resolveOrder given order).endian platform) data offset).map (finalize validator)
  | ⟨.tuple values, order, _, _, _, validator⟩, given, data, offset =>
    (tuplePyUnpack values (resolveOrder given order) data offset).map fun items =>
      finalize validator (.tuple items)
  | ⟨.sequence element length, order, _, _, _, validator⟩, given, data, offset =>
    (repeatPyUnpack (fun offset => dispatch (nativeSpec true element)
      (fun spec => (programUnpack F platform spec data offset (resolveOrder given order)).toOption.map
        (finalize element.validator))
      (element.pyUnpack (resolveOrder given order) data offset)) element.size length offset).map
        fun items => finalize validator (.tuple items)
  | ⟨.model fields, order, _, _, _, validator⟩, given, data, offset =>
    (fieldsPyUnpack fields (resolveOrder given order) [] data offset).map fun arguments =>
      finalize validator (.model arguments)

def tuplePyUnpack : List Schema → ByteOrder → List UInt8 → Nat → Option (List Value)
  | [], _, _, _ => some []
  | child :: values, order, data, offset =>
    (dispatch (nativeSpec true child)
      (fun spec => (programUnpack F platform spec data offset order).toOption.map
        (finalize child.validator))
      (child.pyUnpack order data offset)).bind fun item =>
        (tuplePyUnpack values order data (offset + child.size)).map (item :: ·)

def fieldsPyUnpack : List (String × Schema) → ByteOrder → List (String × Value) → List UInt8 →
    Nat → Option (List (String × Value))
  | [], _, arguments, _, _ => some arguments
  | (name, child) :: fields, order, arguments, data, offset =>
    (dispatch (nativeSpec true child)
      (fun spec => (programUnpack F platform spec data offset order).toOption.map
        (finalize child.validator))
      (child.pyUnpack order data offset)).bind fun item =>
        fieldsPyUnpack fields order (setItem arguments name item) data (offset + child.size)

end

/-- `pack`: the native program, else the Python path. -/
def Schema.pack (s : Schema) (order : Option ByteOrder) (value : Value) : Option (List UInt8) :=
  dispatch (nativeSpec true s) (fun spec => (programPack F platform spec value order).toOption)
    (s.pyPack F platform order value)

/-- `unpack`, up to the validation of annotations. -/
def Schema.unpack (s : Schema) (order : Option ByteOrder) (data : List UInt8) (offset : Nat) :
    Option Value :=
  dispatch (nativeSpec true s)
    (fun spec => (programUnpack F platform spec data offset order).toOption.map
      (finalize s.validator))
    (s.pyUnpack F platform order data offset)

end Engines
/-! ## 3. The layout of a schema -/

mutual

/-- The program a schema tree compiles to when nothing in it is custom. -/
def Schema.layout : Schema → Spec
  | ⟨shape, order, paddingBefore, paddingAfter, _, _⟩ =>
    ⟨shape.layout, order, paddingBefore, paddingAfter⟩

def Shape.layout : Shape → Node
  | .bytes length => .bytes length
  | .scalar kind => .scalar kind
  | .tuple values => .tuple (layouts values)
  | .sequence element length => .sequence element.layout length
  | .model fields => .model (fieldLayouts fields)

def layouts : List Schema → List Spec
  | [] => []
  | schema :: rest => schema.layout :: layouts rest

def fieldLayouts : List (String × Schema) → List (String × Spec)
  | [] => []
  | (name, schema) :: rest => (name, schema.layout) :: fieldLayouts rest

end

theorem fieldLayouts_names : ∀ fields : List (String × Schema),
    (fieldLayouts fields).map Prod.fst = fields.map Prod.fst
  | [] => rfl
  | (name, child) :: fields => by
      rw [fieldLayouts, List.map_cons, List.map_cons, fieldLayouts_names fields]

mutual

theorem nativeSpec_eq : ∀ (s : Schema) (top : Bool) (spec : Spec),
    nativeSpec top s = some spec → spec = s.layout
  | ⟨shape, order, before, after, packer, validator⟩, top, spec, h => by
      rw [nativeSpec] at h
      split at h
      · simp at h
      · obtain ⟨node, hnode, h⟩ := Option.bind_eq_some_iff.mp h
        split at h
        · simp at h
        · rw [nativeNode_eq shape node hnode] at h
          simpa [Schema.layout] using h.symm

theorem nativeNode_eq : ∀ (shape : Shape) (node : Node), nativeNode shape = some node → node = shape.layout
  | .bytes _, node, h => by simpa [nativeNode, Shape.layout] using h.symm
  | .scalar _, node, h => by simpa [nativeNode, Shape.layout] using h.symm
  | .tuple values, node, h => by
      rw [nativeNode] at h
      obtain ⟨specs, hspecs, rfl⟩ := Option.map_eq_some_iff.mp h
      rw [Shape.layout, nativeSpecs_eq values specs hspecs]
  | .sequence element length, node, h => by
      rw [nativeNode] at h
      obtain ⟨spec, hspec, rfl⟩ := Option.map_eq_some_iff.mp h
      rw [Shape.layout, nativeSpec_eq element false spec hspec]
  | .model fields, node, h => by
      rw [nativeNode] at h
      obtain ⟨specs, hspecs, rfl⟩ := Option.map_eq_some_iff.mp h
      rw [Shape.layout, nativeFields_eq fields specs hspecs]

theorem nativeSpecs_eq : ∀ (values : List Schema) (specs : List Spec),
    nativeSpecs values = some specs → specs = layouts values
  | [], specs, h => by simpa [nativeSpecs, layouts] using h.symm
  | child :: values, specs, h => by
      rw [nativeSpecs] at h
      obtain ⟨spec, hspec, h⟩ := Option.bind_eq_some_iff.mp h
      obtain ⟨rest, hrest, h⟩ := Option.bind_eq_some_iff.mp h
      rw [nativeSpec_eq child false spec hspec, nativeSpecs_eq values rest hrest] at h
      simpa [layouts] using h.symm

theorem nativeFields_eq : ∀ (fields : List (String × Schema)) (specs : List (String × Spec)),
    nativeFields fields = some specs → specs = fieldLayouts fields
  | [], specs, h => by simpa [nativeFields, fieldLayouts] using h.symm
  | (name, child) :: fields, specs, h => by
      rw [nativeFields] at h
      obtain ⟨spec, hspec, h⟩ := Option.bind_eq_some_iff.mp h
      obtain ⟨rest, hrest, h⟩ := Option.bind_eq_some_iff.mp h
      rw [nativeSpec_eq child false spec hspec, nativeFields_eq fields rest hrest] at h
      simpa [fieldLayouts] using h.symm

end

mutual

/-- **The struct's size is the layout's.** -/
theorem size_eq : ∀ s : Schema, calcsize s.format = s.layout.size
  | ⟨shape, order, before, after, packer, validator⟩ => by
      rw [Schema.format, compactFormat, calcsize_compactLoop, calcsize_append, calcsize_append,
        calcsize_padItems, calcsize_padItems, innerFormat_size shape, Schema.layout, Spec.size]
      simp [calcsize]

theorem innerFormat_size : ∀ shape : Shape, calcsize shape.innerFormat = shape.layout.size
  | .bytes length => by simp [Shape.innerFormat, calcsize, Symbol.size, Shape.layout, Node.size]
  | .scalar kind => by simp [Shape.innerFormat, calcsize, Symbol.size, Shape.layout, Node.size]
  | .tuple values => by
      rw [Shape.innerFormat, Shape.layout, Node.size, formats_size values]
  | .sequence element length => by
      rw [Shape.innerFormat, Shape.layout, Node.size, ← size_eq element]
      induction length with
      | zero => simp [calcsize]
      | succ n ih =>
        rw [List.replicate_succ, List.flatten_cons, calcsize_append, ih]
        ring
  | .model fields => by
      rw [Shape.innerFormat, Shape.layout, Node.size, fieldFormats_size fields]

theorem formats_size : ∀ values : List Schema, calcsize (formats values) = sizes (layouts values)
  | [] => rfl
  | child :: values => by
      rw [formats, layouts, sizes, calcsize_append, size_eq child, formats_size values]

theorem fieldFormats_size : ∀ fields : List (String × Schema),
    calcsize (fieldFormats fields) = fieldSizes (fieldLayouts fields)
  | [] => rfl
  | (name, child) :: fields => by
      rw [fieldFormats, fieldLayouts, fieldSizes, calcsize_append, size_eq child,
        fieldFormats_size fields]

end

/-! ## 4. A leaf, by `struct` and natively -/

section Leaves

variable (F : Floats)

/-- **A leaf's struct packs as the native engine does**, padding included. -/
theorem leaf_structPack {shape : Shape} {order : Option ByteOrder} {before after : Nat}
    {packer : Option (Value → List UInt8)} {validator : Option (Value → Value)}
    (hleaf : (∃ length, shape = .bytes length) ∨ ∃ kind, shape = .scalar kind)
    (endian : Endian) (value : Value) (h : shape.layout.conforms F value = true) : ∃ bytes : List UInt8,
      structPack F endian (Schema.format ⟨shape, order, before, after, packer, validator⟩) [value] =
        some bytes ∧ (∀ out, packInto F ⟨shape.layout, order, before, after⟩ value endian out =
        .ok (out ++ bytes)) ∧ bytes.length = before + shape.layout.size + after := by
  obtain ⟨bytes, hpack, hlen, -⟩ := spec_roundTrips F ⟨shape.layout, order, before, after⟩ endian value h
  refine ⟨bytes, ?_, hpack, by rw [hlen, Spec.size]⟩
  have hout := hpack []
  rw [List.nil_append, packInto, List.nil_append] at hout
  rcases hleaf with ⟨length, rfl⟩ | ⟨kind, rfl⟩
  · cases value with
    | bytes data =>
      have hdata : data.length = length := by simpa [Shape.layout, Node.conforms] using h
      subst hdata
      rw [Schema.format, Shape.innerFormat, leaf_format _ _ (by simp), structPack_padItems,
        List.singleton_append, structPack, structPack_trailing]
      simp only [Shape.layout, packNode, packBytes, Nat.min_self, List.take_length, Nat.sub_self,
        List.replicate_zero, List.append_nil, ok_bind] at hout
      simpa [pure, Except.pure] using hout
    | _ => simp [Shape.layout, Node.conforms] at h
  · have hconf : kind.conforms F value = true := by simpa [Shape.layout, Node.conforms] using h
    obtain ⟨front, hfront, -, -⟩ := scalar_roundTrips F kind value endian hconf
    have hscalar := structPackScalar_eq F kind value endian hconf
    rw [hfront] at hscalar
    rw [Schema.format, Shape.innerFormat, leaf_format _ _ (by simp), structPack_padItems,
      List.singleton_append, structPack]
    simp only [structPackScalars, hscalar, Except.toOption, Option.bind_eq_bind, Option.bind_some,
      structPack_trailing, Option.pure_def, Option.map_some]
    simp only [Shape.layout, packNode, hfront, ok_bind] at hout
    simpa [pure, Except.pure] using hout

/-- **A leaf's struct unpacks as the native engine does**, where the whole format fits. -/
theorem leaf_structUnpack {shape : Shape} {order : Option ByteOrder} {before after : Nat}
    {packer : Option (Value → List UInt8)} {validator : Option (Value → Value)}
    (hleaf : (∃ length, shape = .bytes length) ∨ ∃ kind, shape = .scalar kind)
    (endian : Endian) (data : List UInt8) (offset : Nat) :
    leafPyUnpack F (Schema.format ⟨shape, order, before, after, packer, validator⟩) endian data offset =
      if data.length < offset + (before + shape.layout.size + after) then none
      else (unpackNode F shape.layout endian data (offset + before)).toOption.map Prod.fst := by
  have hsize := size_eq ⟨shape, order, before, after, packer, validator⟩
  simp only [Schema.layout, Spec.size] at hsize
  rw [leafPyUnpack, structUnpackFrom, hsize]
  split
  · rfl
  · rcases hleaf with ⟨length, rfl⟩ | ⟨kind, rfl⟩
    · rw [Schema.format, Shape.innerFormat, leaf_format _ _ (by simp), structUnpack_padItems,
        List.singleton_append, structUnpackItems, List.drop_drop]
      rfl
    · rw [Schema.format, Shape.innerFormat, leaf_format _ _ (by simp), structUnpack_padItems,
        List.singleton_append, structUnpackItems]
      simp [structUnpackScalar_eq, Shape.layout, unpackNode, Except.toOption, List.range_succ]

end Leaves

end Ceres.Data.Binary
