/-
  File:      Ceres/Data/BinaryEngines.lean
  Subject:   THE TWO PACKING ENGINES AGREE, AND WHERE.

  * `Schema.unpadded`, `Schema.reach` -- where the Python path keeps to the layout, and how far it
    insists on the buffer;
  * `pyPack_packsLike`, `pyUnpack_unpacksLike` -- the Python path against the native engine, node by
    node: it forgets the padding of composites, and its demand on a buffer is `reach`;
  * `engines_agree_iff` -- **the engines agree exactly where nothing is forgotten and the demands
    are equal**; **`engines_read_back`** -- what either packs, both read back where nothing is forgotten.
-/
import Ceres.Data.Schema

namespace Ceres.Data.Binary

open Ceres.Library

/-! ## 1. Where the Python path keeps to the layout -/

mutual

/-- No composite that runs on the Python path has padding of its own; an element of an empty
    sequence never runs. -/
def Schema.unpadded : Schema → Bool
  | ⟨.bytes _, _, _, _, _, _⟩ => true
  | ⟨.scalar _, _, _, _, _, _⟩ => true
  | ⟨.tuple values, _, before, after, _, _⟩ => before == 0 && after == 0 && tupleUnpadded values
  | ⟨.sequence element length, _, before, after, _, _⟩ =>
    before == 0 && after == 0 &&
      (length == 0 || dispatch (nativeSpec true element) (fun _ => true) element.unpadded)
  | ⟨.model fields, _, before, after, _, _⟩ => before == 0 && after == 0 && fieldsUnpadded fields

def tupleUnpadded : List Schema → Bool
  | [] => true
  | child :: values =>
    dispatch (nativeSpec true child) (fun _ => true) child.unpadded && tupleUnpadded values

def fieldsUnpadded : List (String × Schema) → Bool
  | [] => true
  | (_, child) :: fields =>
    dispatch (nativeSpec true child) (fun _ => true) child.unpadded && fieldsUnpadded fields

end

/-- The bytes from its offset on without which the native engine refuses a buffer: all but the
    padding after. -/
def Spec.need (spec : Spec) : Nat := spec.paddingBefore + spec.node.size

theorem Spec.need_le_size : ∀ spec : Spec, spec.need ≤ spec.size
  | ⟨node, order, before, after⟩ => by
      rw [Spec.need, Spec.size]
      exact Nat.le_add_right _ _

/-- The further of two demands on a buffer. -/
def further : Option Nat → Option Nat → Option Nat
  | none, r => r
  | r, none => r
  | some m, some n => some (max m n)

/-- `length` demands, `size` bytes apart. -/
def reachRepeat (reach : Option Nat) (size : Nat) : Nat → Option Nat
  | 0 => none
  | length + 1 => further reach ((reachRepeat reach size length).map (size + ·))

mutual

/-- The bytes from its offset on without which the Python path refuses a buffer, `none` when it
    refuses none: a leaf's struct asks for all of its format, a composite only for what its
    children ask. -/
def Schema.reach : Schema → Option Nat
  | ⟨.bytes length, order, before, after, packer, validator⟩ =>
    some (Schema.size ⟨.bytes length, order, before, after, packer, validator⟩)
  | ⟨.scalar kind, order, before, after, packer, validator⟩ =>
    some (Schema.size ⟨.scalar kind, order, before, after, packer, validator⟩)
  | ⟨.tuple values, _, _, _, _, _⟩ => tupleReach values
  | ⟨.sequence element length, _, _, _, _, _⟩ =>
    reachRepeat (dispatch (nativeSpec true element) (fun spec => some spec.need) element.reach)
      element.size length
  | ⟨.model fields, _, _, _, _, _⟩ => fieldsReach fields

def tupleReach : List Schema → Option Nat
  | [] => none
  | child :: values =>
    further (dispatch (nativeSpec true child) (fun spec => some spec.need) child.reach)
      ((tupleReach values).map (child.size + ·))

def fieldsReach : List (String × Schema) → Option Nat
  | [] => none
  | (_, child) :: fields =>
    further (dispatch (nativeSpec true child) (fun spec => some spec.need) child.reach)
      ((fieldsReach fields).map (child.size + ·))

end

/-- The buffer of `length` bytes meets a demand at `offset`. -/
def Fits (reach : Option Nat) (offset length : Nat) : Prop := ∀ n, reach = some n → offset + n ≤ length

theorem fits_none (offset length : Nat) : Fits none offset length := fun _ h => by simp at h

theorem fits_some {n offset length : Nat} : Fits (some n) offset length ↔ offset + n ≤ length :=
  ⟨fun h => h n rfl, fun h m hm => by simp only [Option.some.injEq] at hm; omega⟩

theorem fits_further {r r' : Option Nat} {offset length : Nat} :
    Fits (further r r') offset length ↔ Fits r offset length ∧ Fits r' offset length := by
  cases r with
  | none => exact ⟨fun h => ⟨fits_none offset length, h⟩, fun h => h.2⟩
  | some m =>
    cases r' with
    | none => exact ⟨fun h => ⟨h, fits_none offset length⟩, fun h => h.1⟩
    | some n =>
      rw [further, fits_some, fits_some, fits_some]
      omega

theorem fits_map {r : Option Nat} {size offset length : Nat} :
    Fits (r.map (size + ·)) offset length ↔ Fits r (offset + size) length := by
  cases r with
  | none => exact ⟨fun _ => fits_none _ _, fun _ => fits_none _ _⟩
  | some n =>
    rw [Option.map_some, fits_some, fits_some]
    omega

/-! ## 2. Custom functions that change nothing -/

/-- A validator that returns what it is given. -/
def IdentityValidator (validator : Option (Value → Value)) : Prop :=
  ∀ f, validator = some f → ∀ value, f value = value

theorem finalize_identity {validator : Option (Value → Value)} (h : IdentityValidator validator)
    (value : Value) : finalize validator value = value := by
  cases hv : validator with
  | none => rfl
  | some f => exact h f hv value

section Agreement

variable (F : Floats) (platform : Endian)

/-- A packer that returns what the leaf's own struct packs. -/
def Schema.IdentityPacker (endian : Endian) (s : Schema) : Prop :=
  ∀ f, s.packer = some f → ∀ value, s.layout.conforms F value = true →
    structPack F endian s.format [value] = some (f value)

mutual

/-- Every custom function of the tree changes nothing. A composite's packer is never called. -/
def Schema.Identity (endian : Endian) : Schema → Prop
  | ⟨.bytes length, order, before, after, packer, validator⟩ =>
    IdentityValidator validator ∧
      Schema.IdentityPacker F endian ⟨.bytes length, order, before, after, packer, validator⟩
  | ⟨.scalar kind, order, before, after, packer, validator⟩ =>
    IdentityValidator validator ∧
      Schema.IdentityPacker F endian ⟨.scalar kind, order, before, after, packer, validator⟩
  | ⟨.tuple values, _, _, _, _, validator⟩ =>
    IdentityValidator validator ∧ tupleIdentity endian values
  | ⟨.sequence element _, _, _, _, _, validator⟩ =>
    IdentityValidator validator ∧ element.Identity endian
  | ⟨.model fields, _, _, _, _, validator⟩ =>
    IdentityValidator validator ∧ fieldsIdentity endian fields

def tupleIdentity (endian : Endian) : List Schema → Prop
  | [] => True
  | child :: values => child.Identity endian ∧ tupleIdentity endian values

def fieldsIdentity (endian : Endian) : List (String × Schema) → Prop
  | [] => True
  | (_, child) :: fields => child.Identity endian ∧ fieldsIdentity endian fields

end

theorem identity_validator {endian : Endian} : ∀ {s : Schema}, s.Identity F endian →
    IdentityValidator s.validator
  | ⟨.bytes _, _, _, _, _, _⟩, h => by rw [Schema.Identity] at h; exact h.1
  | ⟨.scalar _, _, _, _, _, _⟩, h => by rw [Schema.Identity] at h; exact h.1
  | ⟨.tuple _, _, _, _, _, _⟩, h => by rw [Schema.Identity] at h; exact h.1
  | ⟨.sequence _ _, _, _, _, _, _⟩, h => by rw [Schema.Identity] at h; exact h.1
  | ⟨.model _, _, _, _, _, _⟩, h => by rw [Schema.Identity] at h; exact h.1

/-! ## 3. Packing -/

/-- The Python path packs, at most `size` bytes: what the native engine appends when the layout is
    `kept`, and fewer bytes when it is not. -/
def PacksLike (packed : Option (List UInt8)) (native : List UInt8 → Except PyError (List UInt8))
    (size : Nat) (kept : Bool) : Prop :=
  ∃ bytes : List UInt8, packed = some bytes ∧
    (kept = true → ∀ out, native out = .ok (out ++ bytes)) ∧
    bytes.length ≤ size ∧ (kept = false → bytes.length < size)

theorem PacksLike.append {p q : Option (List UInt8)}
    {native native' : List UInt8 → Except PyError (List UInt8)} {m n : Nat} {k k' : Bool}
    (h : PacksLike p native m k) (h' : PacksLike q native' n k') :
    PacksLike (p.bind fun packed => q.map (packed ++ ·)) (fun out => native out >>= native')
      (m + n) (k && k') := by
  obtain ⟨xs, rfl, hxs, hle, hlt⟩ := h
  obtain ⟨ys, rfl, hys, hle', hlt'⟩ := h'
  refine ⟨xs ++ ys, rfl, fun hk out => ?_, ?_, fun hk => ?_⟩
  · rw [Bool.and_eq_true] at hk
    show native out >>= native' = _
    rw [hxs hk.1, ok_bind, hys hk.2, List.append_assoc]
  · rw [List.length_append]
    omega
  · rw [List.length_append]
    rcases Bool.and_eq_false_iff.mp hk with hk | hk
    · have := hlt hk
      omega
    · have := hlt' hk
      omega

variable {order : Option ByteOrder}

/-- A composite's own padding is packed natively and not in Python. -/
theorem PacksLike.composite {packed : Option (List UInt8)} {node : Node} {value : Value} {endian : Endian}
    {before after : Nat} {kept : Bool} (h : PacksLike packed (packNode F node value endian) node.size kept) :
    PacksLike packed (packInto F ⟨node, order, before, after⟩ value endian)
      (Spec.size ⟨node, order, before, after⟩) (before == 0 && after == 0 && kept) := by
  obtain ⟨bytes, rfl, hnative, hle, hlt⟩ := h
  rw [Spec.size]
  refine ⟨bytes, rfl, fun hk out => ?_, by omega, fun hk => ?_⟩
  · simp only [Bool.and_eq_true, beq_iff_eq] at hk
    obtain ⟨⟨rfl, rfl⟩, hk⟩ := hk
    rw [packInto, List.replicate_zero, List.append_nil, hnative hk]
    simp [pure, Except.pure]
  · by_cases hpad : before = 0 ∧ after = 0
    · obtain ⟨rfl, rfl⟩ := hpad
      have := hlt (by simpa using hk)
      omega
    · omega

theorem PacksLike.dispatched {child : Schema} {order : ByteOrder} {value : Value}
    (hconf : child.layout.conforms F value = true) (h : PacksLike (child.pyPack F platform order value)
      (packInto F child.layout value (order.endian platform)) child.layout.size child.unpadded) :
    PacksLike (dispatch (nativeSpec true child) (fun spec => (programPack F platform spec value order).toOption)
        (child.pyPack F platform order value))
      (packInto F child.layout value (order.endian platform)) child.layout.size
      (dispatch (nativeSpec true child) (fun _ => true) child.unpadded) := by
  cases hn : nativeSpec true child with
  | none => exact h
  | some spec =>
    obtain rfl := nativeSpec_eq child true spec hn
    obtain ⟨bytes, hpack, hlen, -⟩ := spec_roundTrips F child.layout (order.endian platform) value hconf
    refine ⟨bytes, ?_, fun _ => hpack, hlen.le, fun hk => by simp [dispatch] at hk⟩
    show (packInto F child.layout value (order.endian platform) []).toOption = some bytes
    rw [hpack]
    rfl

theorem packsLike_repeat {pack : Value → Option (List UInt8)}
    {native : Value → List UInt8 → Except PyError (List UInt8)} {size : Nat} {kept : Bool} :
    ∀ items : List Value, (∀ item ∈ items, PacksLike (pack item) (native item) size kept) →
      PacksLike ((items.mapM pack).map List.flatten)
        (fun out => items.foldlM (fun out item => native item out) out) (size * items.length)
        (items.length == 0 || kept)
  | [], _ => ⟨[], by simp, fun _ out => by simp [pure, Except.pure], by simp, by simp⟩
  | item :: items, h => by
      have hhead := h item (List.mem_cons_self ..)
      have htail := packsLike_repeat items fun v hv => h v (List.mem_cons_of_mem _ hv)
      obtain ⟨bytes, hb, hnative, hle, hlt⟩ := hhead.append htail
      refine ⟨bytes, ?_, fun hk out => ?_, ?_, fun hk => ?_⟩
      · rw [← hb, List.mapM_cons]
        cases pack item <;> cases items.mapM pack <;> rfl
      · have hk' : kept = true := by simpa using hk
        have := hnative (by simp [hk']) out
        simpa only [List.foldlM_cons] using this
      · rw [List.length_cons, Nat.mul_succ]
        omega
      · have hk' : kept = false := by simpa using hk
        have := hlt (by simp [hk'])
        rw [List.length_cons, Nat.mul_succ]
        omega

variable {validator : Option (Value → Value)}

/-- **A leaf packs alike.** -/
theorem packsLike_leaf {shape : Shape} {before after : Nat} {packer : Option (Value → List UInt8)}
    (hleaf : (∃ length, shape = .bytes length) ∨ ∃ kind, shape = .scalar kind) {value : Value}
    (endian : Endian) (hid : Schema.IdentityPacker F endian ⟨shape, order, before, after, packer, validator⟩)
    (hconf : shape.layout.conforms F value = true) : PacksLike
      (leafPyPack F packer (Schema.format ⟨shape, order, before, after, packer, validator⟩) endian value)
      (packInto F ⟨shape.layout, order, before, after⟩ value endian)
      (Spec.size ⟨shape.layout, order, before, after⟩) true := by
  obtain ⟨bytes, hstruct, hnative, hlen⟩ := @leaf_structPack F shape order before after packer
    validator hleaf endian value hconf
  refine ⟨bytes, ?_, fun _ => hnative, by rw [Spec.size, hlen], fun hk => by simp at hk⟩
  unfold leafPyPack
  split
  · rename_i f
    rw [← hid f rfl value hconf, hstruct]
  · exact hstruct

mutual

/-- **The Python path packs like the native engine**, less the padding it forgets. -/
theorem pyPack_packsLike : ∀ (s : Schema) (given : Option ByteOrder) (value : Value),
    s.Identity F ((resolveOrder given s.order).endian platform) → s.layout.conforms F value = true →
    PacksLike (s.pyPack F platform given value)
      (packInto F s.layout value ((resolveOrder given s.order).endian platform)) s.layout.size s.unpadded
  | ⟨.bytes length, order, before, after, packer, validator⟩, given, value, hid, hconf => by
      rw [Schema.pyPack, Schema.unpadded]
      exact packsLike_leaf F (.inl ⟨_, rfl⟩) _ (by rw [Schema.Identity] at hid; exact hid.2)
        hconf
  | ⟨.scalar kind, order, before, after, packer, validator⟩, given, value, hid, hconf => by
      rw [Schema.pyPack, Schema.unpadded]
      exact packsLike_leaf F (.inr ⟨_, rfl⟩) _ (by rw [Schema.Identity] at hid; exact hid.2)
        hconf
  | ⟨.tuple values, order, before, after, packer, validator⟩, given, value, hid, hconf => by
      rw [Schema.pyPack, Schema.unpadded]
      refine PacksLike.composite F ?_
      rw [Schema.layout, Spec.conforms, Shape.layout] at hconf
      cases value with
      | tuple items =>
        rw [Node.conforms] at hconf
        rw [Schema.Identity] at hid
        obtain ⟨bytes, h⟩ := tuplePyPack_packsLike values (resolveOrder given order) items hid.2 hconf
        exact ⟨bytes, h.1, fun hk out => by
          rw [Shape.layout, packNode]
          exact h.2.1 hk out, h.2.2⟩
      | _ => simp [Node.conforms] at hconf
  | ⟨.sequence element length, order, before, after, packer, validator⟩, given, value, hid,
      hconf => by
      rw [Schema.pyPack, Schema.unpadded]
      refine PacksLike.composite F ?_
      rw [Schema.layout, Spec.conforms, Shape.layout] at hconf
      cases value with
      | tuple items =>
        simp only [Node.conforms, Bool.and_eq_true, beq_iff_eq, List.all_eq_true] at hconf
        obtain ⟨rfl, hall⟩ := hconf
        rw [Schema.Identity] at hid
        obtain ⟨bytes, h⟩ := packsLike_repeat items fun item hitem =>
          PacksLike.dispatched F platform (hall item hitem)
            (pyPack_packsLike element (some (resolveOrder given order)) item hid.2
              (hall item hitem))
        exact ⟨bytes, h.1, fun hk out => by
          rw [Shape.layout, packNode]
          exact h.2.1 hk out, h.2.2⟩
      | _ => simp [Node.conforms] at hconf
  | ⟨.model fields, order, before, after, packer, validator⟩, given, value, hid, hconf => by
      rw [Schema.pyPack, Schema.unpadded]
      refine PacksLike.composite F ?_
      rw [Schema.layout, Spec.conforms, Shape.layout] at hconf
      cases value with
      | model record =>
        rw [Node.conforms, Bool.and_eq_true] at hconf
        rw [Schema.Identity] at hid
        obtain ⟨bytes, h⟩ := fieldsPyPack_packsLike fields (resolveOrder given order) record hid.2
          hconf.2
        exact ⟨bytes, h.1, fun hk out => by
          rw [Shape.layout, packNode]
          exact h.2.1 hk out, h.2.2⟩
      | _ => simp [Node.conforms] at hconf

theorem tuplePyPack_packsLike : ∀ (values : List Schema) (order : ByteOrder) (items : List Value),
    tupleIdentity F (order.endian platform) values → tupleConforms F (layouts values) items = true →
    PacksLike (tuplePyPack F platform values order items)
      (packTuple F (layouts values) items (order.endian platform)) (sizes (layouts values)) (tupleUnpadded values)
  | [], order, items, _, _ => by
      rw [tuplePyPack, tupleUnpadded]
      · exact ⟨[], rfl, fun _ out => by simp [layouts, packTuple], by simp [layouts, sizes], by simp⟩
      · simp
  | child :: values, order, [], _, hconf => by simp [layouts, tupleConforms] at hconf
  | child :: values, order, item :: items, hid, hconf => by
      rw [layouts, tupleConforms, Bool.and_eq_true] at hconf
      rw [tupleIdentity] at hid
      have hchild := PacksLike.dispatched F platform hconf.1
        (pyPack_packsLike child (some order) item hid.1 hconf.1)
      have hrest := tuplePyPack_packsLike values order items hid.2 hconf.2
      obtain ⟨bytes, h⟩ := hchild.append hrest
      rw [tuplePyPack, tupleUnpadded, layouts, sizes]
      exact ⟨bytes, h.1, fun hk out => by
        rw [packTuple]
        exact h.2.1 hk out, h.2.2⟩

theorem fieldsPyPack_packsLike : ∀ (fields : List (String × Schema)) (order : ByteOrder)
    (record : List (String × Value)), fieldsIdentity F (order.endian platform) fields →
    fieldsConform F (fieldLayouts fields) record = true →
    PacksLike (fieldsPyPack F platform fields order (.model record))
      (packFields F (fieldLayouts fields) (.model record) (order.endian platform))
      (fieldSizes (fieldLayouts fields)) (fieldsUnpadded fields)
  | [], order, record, _, _ => by
      rw [fieldsPyPack, fieldsUnpadded]
      exact ⟨[], rfl, fun _ out => by simp [fieldLayouts, packFields],
        by simp [fieldLayouts, fieldSizes], by simp⟩
  | (name, child) :: fields, order, record, hid, hconf => by
      rw [fieldLayouts, fieldsConform, Bool.and_eq_true, Option.any_eq_true_iff_get] at hconf
      obtain ⟨⟨hsome, hconf⟩, hconf'⟩ := hconf
      obtain ⟨item, hitem⟩ := Option.isSome_iff_exists.mp hsome
      simp only [hitem, Option.get_some] at hconf
      rw [fieldsIdentity] at hid
      have hget : (Value.model record).getattr name = .ok item := by
        simp only [Value.getattr, hitem]
      have hchild := PacksLike.dispatched F platform hconf
        (pyPack_packsLike child (some order) item hid.1 hconf)
      have hrest := fieldsPyPack_packsLike fields order record hid.2 hconf'
      obtain ⟨bytes, h⟩ := hchild.append hrest
      rw [fieldsPyPack, fieldsUnpadded, fieldLayouts, fieldSizes, hget]
      exact ⟨bytes, h.1, fun hk out => by
        rw [packFields, hget]
        exact h.2.1 hk out, h.2.2⟩

end

/-! ## 4. Unpacking -/

theorem repeat_total {read : Reader PyError Value} {size : Nat} {data : List UInt8}
    (h : ∀ offset, offset + size ≤ data.length → ∃ v, read data offset = .ok (v, offset + size)) :
    ∀ (length offset : Nat), offset + size * length ≤ data.length →
      ∃ items, unpackRepeat read length data offset = .ok (items, offset + size * length)
  | 0, offset, _ => ⟨[], rfl⟩
  | length + 1, offset, hle => by
      rw [Nat.mul_succ] at hle
      obtain ⟨v, hv⟩ := h offset (by omega)
      obtain ⟨items, hitems⟩ := repeat_total h length (offset + size) (by omega)
      refine ⟨v :: items, ?_⟩
      simp only [unpackRepeat, hv, ok_bind, hitems, Nat.mul_succ, Except.map, Except.ok.injEq,
        Prod.mk.injEq, true_and]
      omega

mutual

/-- The native engine reads every buffer that holds the layout up to its last padding. -/
theorem unpackFrom_total : ∀ (spec : Spec) (endian : Endian) (data : List UInt8) (offset : Nat),
    offset + spec.need ≤ data.length → ∃ v, unpackFrom F spec endian data offset = .ok (v, offset + spec.size)
  | ⟨node, order, before, after⟩, endian, data, offset, h => by
      rw [Spec.need] at h
      obtain ⟨v, hv⟩ := unpackNode_total node endian data (offset + before) (by simpa [add_assoc] using h)
      refine ⟨v, ?_⟩
      simp only at h
      rw [unpackFrom, Spec.size]
      simp only [hv, if_neg (show ¬ data.length < offset + before + node.size by omega), Except.map,
        Except.ok.injEq, Prod.mk.injEq, true_and]
      omega

theorem unpackNode_total : ∀ (node : Node) (endian : Endian) (data : List UInt8) (offset : Nat),
    offset + node.size ≤ data.length → ∃ v, unpackNode F node endian data offset = .ok (v, offset + node.size)
  | .bytes length, _, data, offset, _ => ⟨_, by rw [unpackNode, Node.size]⟩
  | .scalar kind, _, data, offset, _ => ⟨_, by rw [unpackNode, Node.size]⟩
  | .tuple values, endian, data, offset, h => by
      rw [Node.size] at h ⊢
      obtain ⟨items, hitems⟩ := unpackTuple_total values endian data offset h
      exact ⟨.tuple items, by simp only [unpackNode, hitems]; rfl⟩
  | .sequence element length, endian, data, offset, h => by
      rw [Node.size] at h ⊢
      obtain ⟨items, hitems⟩ := @repeat_total (unpackFrom F element endian) _ _
        (fun offset hle => unpackFrom_total element endian data offset
          (le_trans (Nat.add_le_add_left element.need_le_size _) hle)) length offset h
      exact ⟨.tuple items, by simp only [unpackNode, hitems]; rfl⟩
  | .model fields, endian, data, offset, h => by
      rw [Node.size] at h ⊢
      obtain ⟨record, hrecord⟩ := unpackFields_total fields endian [] data offset h
      exact ⟨.model record, by simp only [unpackNode, hrecord]; rfl⟩

theorem unpackTuple_total : ∀ (values : List Spec) (endian : Endian) (data : List UInt8)
    (offset : Nat), offset + sizes values ≤ data.length →
      ∃ items, unpackTuple F values endian data offset = .ok (items, offset + sizes values)
  | [], _, _, offset, _ => ⟨[], rfl⟩
  | child :: values, endian, data, offset, h => by
      rw [sizes] at h ⊢
      have hneed := child.need_le_size
      obtain ⟨v, hv⟩ := unpackFrom_total child endian data offset (by omega)
      obtain ⟨items, hitems⟩ := unpackTuple_total values endian data (offset + child.size) (by omega)
      refine ⟨v :: items, ?_⟩
      simp [unpackTuple, hv, hitems, Except.map, add_assoc]

theorem unpackFields_total : ∀ (fields : List (String × Spec)) (endian : Endian)
    (arguments : List (String × Value)) (data : List UInt8) (offset : Nat),
    offset + fieldSizes fields ≤ data.length → ∃ record, unpackFields F fields endian arguments data offset =
        .ok (record, offset + fieldSizes fields)
  | [], _, arguments, _, offset, _ => ⟨arguments, rfl⟩
  | (name, child) :: fields, endian, arguments, data, offset, h => by
      rw [fieldSizes] at h ⊢
      have hneed := child.need_le_size
      obtain ⟨v, hv⟩ := unpackFrom_total child endian data offset (by omega)
      obtain ⟨record, hrecord⟩ := unpackFields_total fields endian (setItem arguments name v) data
        (offset + child.size) (by omega)
      refine ⟨record, ?_⟩
      simp only [unpackFields, hv, ok_bind, hrecord, add_assoc]

end

theorem unpackFrom_short {spec : Spec} {endian : Endian} {data : List UInt8} {offset : Nat}
    (h : data.length < offset + spec.need) : ∃ e, unpackFrom F spec endian data offset = .error e := by
  obtain ⟨node, order, before, after⟩ := spec
  rw [Spec.need] at h
  simp only at h
  refine ⟨shortBuffer (offset + before + node.size) data.length, ?_⟩
  rw [unpackFrom]
  simp only [if_pos (show data.length < offset + before + node.size by omega)]

/-- The Python path reads exactly the buffers that meet its demand, and then what the native
    engine reads when it reads at all. -/
def UnpacksLike {α : Type} (unpacked : Option α) (native : Except PyError (α × Nat))
    (reach : Option Nat) (offset length need size : Nat) : Prop :=
  (Fits reach offset length →
    ∃ v, unpacked = some v ∧ (offset + need ≤ length → native = .ok (v, offset + size))) ∧
  (¬ Fits reach offset length → unpacked = none)

theorem UnpacksLike.append {α β γ : Type} (f : α → β → γ) {p : Option α} {q : α → Option β}
    {n : Except PyError (α × Nat)} {m : α → Nat → Except PyError (β × Nat)}
    {r r' : Option Nat} {offset length need size need' : Nat} (hneed : need ≤ size)
    (h : UnpacksLike p n r offset length need size)
    (h' : ∀ v, UnpacksLike (q v) (m v (offset + size)) r' (offset + size) length need' need') :
    UnpacksLike (p.bind fun v => (q v).map (f v)) (n >>= fun v => (m v.1 v.2).map fun w => (f v.1 w.1, w.2))
      (further r (r'.map (size + ·))) offset length (size + need') (size + need') := by
  constructor
  · intro hfits
    obtain ⟨hr, hr'⟩ := fits_further.mp hfits
    obtain ⟨v, rfl, hv⟩ := h.1 hr
    obtain ⟨w, hw, hnative⟩ := (h' v).1 (fits_map.mp hr')
    refine ⟨f v w, by simp [hw], fun hle => ?_⟩
    rw [hv (by omega), ok_bind, hnative (by omega)]
    simp [Except.map, add_assoc]
  · intro hfits
    by_cases hr : Fits r offset length
    · obtain ⟨v, rfl, -⟩ := h.1 hr
      have hr' : ¬ Fits r' (offset + size) length := fun hr' =>
        hfits (fits_further.mpr ⟨hr, fits_map.mpr hr'⟩)
      simp [(h' v).2 hr']
    · simp [h.2 hr]

theorem unpacksLike_nil {α : Type} (v : α) (offset length : Nat) :
    UnpacksLike (some v) (.ok (v, offset)) none offset length 0 0 :=
  ⟨fun _ => ⟨v, rfl, fun _ => rfl⟩, fun h => absurd (fits_none offset length) h⟩

theorem UnpacksLike.composite {α : Type} {unpacked : Option α} {endian : Endian} {data : List UInt8}
    {offset : Nat} {node : Node} {reach : Option Nat} {native : Except PyError (α × Nat)} {f : α → Value}
    (hnode : unpackNode F node endian data offset = native.map fun p => (f p.1, p.2))
    (hval : IdentityValidator validator)
    (h : UnpacksLike unpacked native reach offset data.length node.size node.size) :
    UnpacksLike (unpacked.map fun v => finalize validator (f v))
      (unpackFrom F ⟨node, order, 0, 0⟩ endian data offset) reach offset data.length
      (Spec.need ⟨node, order, 0, 0⟩) (Spec.size ⟨node, order, 0, 0⟩) := by
  constructor
  · intro hfits
    obtain ⟨v, rfl, hv⟩ := h.1 hfits
    refine ⟨f v, by rw [Option.map_some, finalize_identity hval], fun hle => ?_⟩
    rw [Spec.need] at hle
    simp only [Nat.zero_add] at hle
    rw [unpackFrom, Spec.size]
    simp only [Nat.add_zero, Nat.zero_add, if_neg (show ¬ data.length < offset + node.size by omega),
      hnode, hv hle]
    rfl
  · intro hfits
    rw [h.2 hfits]
    rfl

theorem UnpacksLike.dispatched {child : Schema} {order : ByteOrder} {data : List UInt8}
    {offset : Nat} (hval : IdentityValidator child.validator)
    (hk : dispatch (nativeSpec true child) (fun _ => true) child.unpadded = true)
    (h : child.unpadded = true → UnpacksLike (child.pyUnpack F platform order data offset)
      (unpackFrom F child.layout (order.endian platform) data offset) child.reach offset data.length
      child.layout.need child.layout.size) : UnpacksLike (dispatch (nativeSpec true child)
        (fun spec => (programUnpack F platform spec data offset order).toOption.map (finalize child.validator))
        (child.pyUnpack F platform order data offset))
      (unpackFrom F child.layout (order.endian platform) data offset)
      (dispatch (nativeSpec true child) (fun spec => some spec.need) child.reach) offset data.length
      child.layout.need child.layout.size := by
  cases hn : nativeSpec true child with
  | none =>
    rw [hn] at hk
    exact h hk
  | some spec =>
    obtain rfl := nativeSpec_eq child true spec hn
    have hprogram : programUnpack F platform child.layout data offset order =
        (unpackFrom F child.layout (order.endian platform) data offset).map Prod.fst := rfl
    simp only [dispatch, hprogram]
    constructor
    · intro hfits
      obtain ⟨v, hv⟩ := unpackFrom_total F child.layout (order.endian platform) data offset
        (fits_some.mp hfits)
      refine ⟨v, ?_, fun _ => hv⟩
      rw [hv]
      simp [Except.map, Except.toOption, finalize_identity hval]
    · intro hfits
      obtain ⟨e, he⟩ := @unpackFrom_short F child.layout (order.endian platform) data offset
        (by rw [fits_some] at hfits; omega)
      rw [he]
      rfl

theorem unpacksLike_leaf {shape : Shape} {before after : Nat} {packer : Option (Value → List UInt8)}
    (hleaf : (∃ length, shape = .bytes length) ∨ ∃ kind, shape = .scalar kind)
    (hval : IdentityValidator validator) (endian : Endian) (data : List UInt8) (offset : Nat) : UnpacksLike
      ((leafPyUnpack F (Schema.format ⟨shape, order, before, after, packer, validator⟩) endian data
        offset).map (finalize validator)) (unpackFrom F ⟨shape.layout, order, before, after⟩ endian data offset)
      (some (Schema.size ⟨shape, order, before, after, packer, validator⟩)) offset data.length
      (Spec.need ⟨shape.layout, order, before, after⟩) (Spec.size ⟨shape.layout, order, before, after⟩) := by
  have hsize : Schema.size ⟨shape, order, before, after, packer, validator⟩ =
      before + shape.layout.size + after := by
    rw [Schema.size, size_eq, Schema.layout, Spec.size]
  rw [leaf_structUnpack F hleaf, hsize]
  constructor
  · intro hfits
    rw [fits_some] at hfits
    rw [if_neg (by omega)]
    obtain ⟨v, hv⟩ := unpackNode_total F shape.layout endian data (offset + before) (by omega)
    refine ⟨v, ?_, fun _ => ?_⟩
    · simp [hv, Except.toOption, finalize_identity hval]
    · rw [unpackFrom, Spec.size]
      simp only [hv, if_neg (show ¬ data.length < offset + before + shape.layout.size by omega),
        Except.map, Except.ok.injEq, Prod.mk.injEq, true_and]
      omega
  · intro hfits
    rw [fits_some] at hfits
    rw [if_pos (by omega)]
    rfl

theorem unpacksLike_repeat {unpack : Nat → Option Value} {read : Reader PyError Value}
    {data : List UInt8} {reach : Option Nat} {need size : Nat} (hneed : need ≤ size)
    (h : ∀ offset, UnpacksLike (unpack offset) (read data offset) reach offset data.length need size) :
    ∀ (length offset : Nat),
      UnpacksLike (repeatPyUnpack unpack size length offset) (unpackRepeat read length data offset)
        (reachRepeat reach size length) offset data.length (size * length) (size * length)
  | 0, offset => unpacksLike_nil [] offset data.length
  | length + 1, offset => by
      have ih := unpacksLike_repeat hneed h length (offset + size)
      have happ := UnpacksLike.append List.cons hneed (h offset)
        (q := fun _ => repeatPyUnpack unpack size length (offset + size))
        (m := fun _ => unpackRepeat read length data) (fun _ => ih)
      rw [repeatPyUnpack, reachRepeat, Nat.mul_succ, Nat.add_comm (size * length)]
      exact happ

mutual

/-- **The Python path unpacks like the native engine**, where it keeps to the layout. -/
theorem pyUnpack_unpacksLike : ∀ (s : Schema) (given : Option ByteOrder) (data : List UInt8)
    (offset : Nat), s.Identity F ((resolveOrder given s.order).endian platform) → s.unpadded = true →
    UnpacksLike (s.pyUnpack F platform given data offset)
      (unpackFrom F s.layout ((resolveOrder given s.order).endian platform) data offset) s.reach
      offset data.length s.layout.need s.layout.size
  | ⟨.bytes length, order, before, after, packer, validator⟩, given, data, offset, hid, hk => by
      rw [Schema.pyUnpack, Schema.reach]
      exact unpacksLike_leaf F (.inl ⟨_, rfl⟩) (identity_validator F hid) _ data offset
  | ⟨.scalar kind, order, before, after, packer, validator⟩, given, data, offset, hid, hk => by
      rw [Schema.pyUnpack, Schema.reach]
      exact unpacksLike_leaf F (.inr ⟨_, rfl⟩) (identity_validator F hid) _ data offset
  | ⟨.tuple values, order, before, after, packer, validator⟩, given, data, offset, hid, hk => by
      have hval := identity_validator F hid
      simp only [Schema.unpadded, Bool.and_eq_true, beq_iff_eq] at hk
      obtain ⟨⟨rfl, rfl⟩, hk⟩ := hk
      rw [Schema.Identity] at hid
      rw [Schema.pyUnpack, Schema.reach]
      refine UnpacksLike.composite F (f := Value.tuple) ?_ hval
        (tuplePyUnpack_unpacksLike values (resolveOrder given order) data offset hid.2 hk)
      rw [Shape.layout, unpackNode]
  | ⟨.sequence element length, order, before, after, packer, validator⟩, given, data, offset, hid,
      hk => by
      have hval := identity_validator F hid
      simp only [Schema.unpadded, Bool.and_eq_true, beq_iff_eq, Bool.or_eq_true] at hk
      obtain ⟨⟨rfl, rfl⟩, hk⟩ := hk
      rw [Schema.Identity] at hid
      rw [Schema.pyUnpack, Schema.reach]
      refine UnpacksLike.composite F (f := Value.tuple) (by rw [Shape.layout, unpackNode]) hval ?_
      have hsize : element.size = element.layout.size := by rw [Schema.size, size_eq]
      rw [Shape.layout, Node.size, hsize]
      rcases hk with rfl | hk
      · exact unpacksLike_nil [] offset data.length
      · exact unpacksLike_repeat element.layout.need_le_size (fun offset =>
          UnpacksLike.dispatched F platform (identity_validator F hid.2) hk fun hk =>
            pyUnpack_unpacksLike element (some (resolveOrder given order)) data offset hid.2 hk)
          length offset
  | ⟨.model fields, order, before, after, packer, validator⟩, given, data, offset, hid, hk => by
      have hval := identity_validator F hid
      simp only [Schema.unpadded, Bool.and_eq_true, beq_iff_eq] at hk
      obtain ⟨⟨rfl, rfl⟩, hk⟩ := hk
      rw [Schema.Identity] at hid
      rw [Schema.pyUnpack, Schema.reach]
      refine UnpacksLike.composite F (f := Value.model) ?_ hval
        (fieldsPyUnpack_unpacksLike fields (resolveOrder given order) [] data offset hid.2 hk)
      rw [Shape.layout, unpackNode]

theorem tuplePyUnpack_unpacksLike : ∀ (values : List Schema) (order : ByteOrder)
    (data : List UInt8) (offset : Nat), tupleIdentity F (order.endian platform) values →
    tupleUnpadded values = true → UnpacksLike (tuplePyUnpack F platform values order data offset)
      (unpackTuple F (layouts values) (order.endian platform) data offset) (tupleReach values)
      offset data.length (sizes (layouts values)) (sizes (layouts values))
  | [], _, data, offset, _, _ => unpacksLike_nil [] offset data.length
  | child :: values, order, data, offset, hid, hk => by
      rw [tupleIdentity] at hid
      rw [tupleUnpadded, Bool.and_eq_true] at hk
      have hchild := UnpacksLike.dispatched F platform (identity_validator F hid.1) hk.1 fun hk =>
        pyUnpack_unpacksLike child (some order) data offset hid.1 hk
      have hsize : child.size = child.layout.size := by rw [Schema.size, size_eq]
      rw [tuplePyUnpack, tupleReach, layouts, unpackTuple, sizes, hsize]
      exact UnpacksLike.append List.cons child.layout.need_le_size hchild
        (m := fun _ => unpackTuple F (layouts values) (order.endian platform) data)
        (fun _ => tuplePyUnpack_unpacksLike values order data _ hid.2 hk.2)

theorem fieldsPyUnpack_unpacksLike : ∀ (fields : List (String × Schema)) (order : ByteOrder)
    (arguments : List (String × Value)) (data : List UInt8) (offset : Nat),
    fieldsIdentity F (order.endian platform) fields → fieldsUnpadded fields = true →
    UnpacksLike (fieldsPyUnpack F platform fields order arguments data offset)
      (unpackFields F (fieldLayouts fields) (order.endian platform) arguments data offset)
      (fieldsReach fields) offset data.length (fieldSizes (fieldLayouts fields))
      (fieldSizes (fieldLayouts fields))
  | [], _, arguments, data, offset, _, _ => unpacksLike_nil arguments offset data.length
  | (name, child) :: fields, order, arguments, data, offset, hid, hk => by
      rw [fieldsIdentity] at hid
      rw [fieldsUnpadded, Bool.and_eq_true] at hk
      have hchild := UnpacksLike.dispatched F platform (identity_validator F hid.1) hk.1 fun hk =>
        pyUnpack_unpacksLike child (some order) data offset hid.1 hk
      have hsize : child.size = child.layout.size := by rw [Schema.size, size_eq]
      have happ := UnpacksLike.append (fun _ record => record) child.layout.need_le_size hchild
        (q := fun v => fieldsPyUnpack F platform fields order (setItem arguments name v) data
          (offset + child.layout.size))
        (m := fun v => unpackFields F (fieldLayouts fields) (order.endian platform)
          (setItem arguments name v) data)
        (fun v => fieldsPyUnpack_unpacksLike fields order (setItem arguments name v) data _ hid.2
          hk.2)
      rw [fieldsPyUnpack, fieldsReach, fieldLayouts, unpackFields, fieldSizes, hsize]
      have hmap : ∀ e : Except PyError (List (String × Value) × Nat),
          e.map (fun w => (w.1, w.2)) = e := fun e => by cases e <;> rfl
      simpa only [Option.map_id', hmap] using happ

end

/-! ## 5. Every schema describes a value -/

mutual

/-- The names of a model's fields are distinct, and a byte string is not empty. -/
def Schema.valid : Schema → Bool
  | ⟨shape, _, _, _, _, _⟩ => shape.valid

def Shape.valid : Shape → Bool
  | .bytes length => 1 ≤ length
  | .scalar _ => true
  | .tuple values => tupleValid values
  | .sequence element _ => element.valid
  | .model fields => decide (fields.map Prod.fst).Nodup && fieldsValid fields

def tupleValid : List Schema → Bool
  | [] => true
  | child :: values => child.valid && tupleValid values

def fieldsValid : List (String × Schema) → Bool
  | [] => true
  | (_, child) :: fields => child.valid && fieldsValid fields

end

theorem scalar_inhabited (kind : Scalar) : ∃ value, kind.conforms F value = true := by
  have h16 : survives F.narrow16 F.widen16 0 = true := survives_iff.mpr ⟨0, F.zero16⟩
  have h32 : survives F.narrow32 F.widen32 0 = true := survives_iff.mpr ⟨0, F.zero32⟩
  cases kind
  case bool => exact ⟨.bool false, rfl⟩
  case float16 => exact ⟨.float 0, h16⟩
  case float32 => exact ⟨.float 0, h32⟩
  case float64 => exact ⟨.float 0, rfl⟩
  case complex64 => exact ⟨.complex 0 0, by rw [Scalar.conforms, h32]; rfl⟩
  case complex128 => exact ⟨.complex 0 0, rfl⟩
  all_goals exact ⟨.int 0, by simp [Scalar.conforms]⟩

theorem firstNames_fresh : ∀ (fields : List (String × Spec)) (seen : List String),
    (fields.map Prod.fst).Nodup → (∀ name ∈ fields.map Prod.fst, name ∉ seen) →
      firstNames seen fields = fields.map Prod.fst
  | [], _, _, _ => rfl
  | (name, spec) :: fields, seen, hnodup, hfresh => by
      rw [List.map_cons, List.nodup_cons] at hnodup
      rw [firstNames, if_neg (hfresh name (by simp)), List.map_cons,
        firstNames_fresh fields (seen ++ [name]) hnodup.2]
      intro other hother
      rw [List.mem_append, not_or, List.mem_singleton]
      exact ⟨hfresh other (by simp [List.mem_map.mp hother]), fun he => hnodup.1 (he ▸ hother)⟩

theorem fieldsConform_cons : ∀ (fields : List (String × Spec)) (record : List (String × Value))
    (name : String) (value : Value), name ∉ fields.map Prod.fst →
      fieldsConform F fields record = true → fieldsConform F fields ((name, value) :: record) = true
  | [], _, _, _, _, _ => rfl
  | (key, child) :: fields, record, name, value, hne, h => by
      rw [List.map_cons, List.mem_cons, not_or] at hne
      rw [fieldsConform, Bool.and_eq_true] at h ⊢
      have hkey : (key == name) = false := by simpa using fun he : key = name => hne.1 he.symm
      rw [List.lookup_cons, hkey]
      exact ⟨h.1, fieldsConform_cons fields record name value hne.2 h.2⟩

mutual

theorem schema_inhabited : ∀ s : Schema, s.valid = true → ∃ value, s.layout.conforms F value = true
  | ⟨shape, order, before, after, packer, validator⟩, h => by
      rw [Schema.valid] at h
      obtain ⟨value, hv⟩ := shape_inhabited shape h
      exact ⟨value, by rw [Schema.layout, Spec.conforms]; exact hv⟩

theorem shape_inhabited : ∀ shape : Shape, shape.valid = true → ∃ value, shape.layout.conforms F value = true
  | .bytes length, _ => ⟨.bytes (List.replicate length 0), by simp [Shape.layout, Node.conforms]⟩
  | .scalar kind, _ => by
      obtain ⟨value, hv⟩ := scalar_inhabited F kind
      exact ⟨value, by rw [Shape.layout, Node.conforms]; exact hv⟩
  | .tuple values, h => by
      rw [Shape.valid] at h
      obtain ⟨items, hv⟩ := tuple_inhabited values h
      exact ⟨.tuple items, by rw [Shape.layout, Node.conforms]; exact hv⟩
  | .sequence element length, h => by
      rw [Shape.valid] at h
      obtain ⟨value, hv⟩ := schema_inhabited element h
      refine ⟨.tuple (List.replicate length value), ?_⟩
      rw [Shape.layout, Node.conforms, List.length_replicate, beq_self_eq_true, Bool.true_and,
        List.all_eq_true]
      intro item hitem
      rw [List.eq_of_mem_replicate hitem]
      exact hv
  | .model fields, h => by
      rw [Shape.valid, Bool.and_eq_true, decide_eq_true_eq] at h
      obtain ⟨record, hkeys, hv⟩ := fields_inhabited fields h.1 h.2
      refine ⟨.model record, ?_⟩
      rw [Shape.layout, Node.conforms, Bool.and_eq_true, beq_iff_eq, hkeys,
        firstNames_fresh _ _ (by rw [fieldLayouts_names]; exact h.1) (by simp), fieldLayouts_names]
      exact ⟨rfl, hv⟩

theorem tuple_inhabited : ∀ values : List Schema, tupleValid values = true →
    ∃ items, tupleConforms F (layouts values) items = true
  | [], _ => ⟨[], rfl⟩
  | child :: values, h => by
      rw [tupleValid, Bool.and_eq_true] at h
      obtain ⟨item, hitem⟩ := schema_inhabited child h.1
      obtain ⟨items, hitems⟩ := tuple_inhabited values h.2
      exact ⟨item :: items, by rw [layouts, tupleConforms, hitem, hitems]; rfl⟩

theorem fields_inhabited : ∀ fields : List (String × Schema), (fields.map Prod.fst).Nodup →
    fieldsValid fields = true → ∃ record : List (String × Value), record.map Prod.fst = fields.map Prod.fst ∧
      fieldsConform F (fieldLayouts fields) record = true
  | [], _, _ => ⟨[], rfl, rfl⟩
  | (name, child) :: fields, hnodup, h => by
      rw [List.map_cons, List.nodup_cons] at hnodup
      rw [fieldsValid, Bool.and_eq_true] at h
      obtain ⟨item, hitem⟩ := schema_inhabited child h.1
      obtain ⟨record, hkeys, hrecord⟩ := fields_inhabited fields hnodup.2 h.2
      refine ⟨(name, item) :: record, by rw [List.map_cons, List.map_cons, hkeys], ?_⟩
      rw [fieldLayouts, fieldsConform, List.lookup_cons_self, Option.any_some, hitem, Bool.true_and]
      exact fieldsConform_cons F _ _ _ _ (by rw [fieldLayouts_names]; exact hnodup.1) hrecord

end

/-! ## 6. The engines agree -/

theorem fits_reachRepeat {reach : Option Nat} {size length : Nat}
    (h : ∀ offset, offset + size ≤ length → Fits reach offset length) : ∀ {count offset : Nat},
    offset + size * count ≤ length → Fits (reachRepeat reach size count) offset length
  | 0, _, _ => fits_none _ _
  | count + 1, offset, hle => by
      rw [Nat.mul_succ] at hle
      rw [reachRepeat, fits_further, fits_map]
      exact ⟨h offset (by omega), fits_reachRepeat h (by omega)⟩

theorem fits_dispatch {child : Schema} {offset length : Nat} (h : Fits child.reach offset length)
    (hle : offset + child.layout.size ≤ length) :
    Fits (dispatch (nativeSpec true child) (fun spec => some spec.need) child.reach) offset length := by
  cases hspec : nativeSpec true child with
  | none => exact h
  | some spec =>
    obtain rfl := nativeSpec_eq child true spec hspec
    exact fits_some.mpr (le_trans (Nat.add_le_add_left child.layout.need_le_size offset) hle)

mutual

/-- The Python path asks of a buffer no more than the bytes of the layout. -/
theorem fits_reach : ∀ (s : Schema) {offset length : Nat}, offset + s.layout.size ≤ length →
    Fits s.reach offset length
  | ⟨.bytes _, _, _, _, _, _⟩, _, _, hle => by
      rw [Schema.reach, fits_some, Schema.size, size_eq]
      exact hle
  | ⟨.scalar _, _, _, _, _, _⟩, _, _, hle => by
      rw [Schema.reach, fits_some, Schema.size, size_eq]
      exact hle
  | ⟨.tuple values, _, _, _, _, _⟩, offset, _, hle => by
      rw [Schema.layout, Spec.size, Shape.layout, Node.size] at hle
      exact fits_tupleReach values (by omega)
  | ⟨.sequence element count, _, _, _, _, _⟩, offset, _, hle => by
      rw [Schema.layout, Spec.size, Shape.layout, Node.size] at hle
      rw [Schema.reach, Schema.size, size_eq]
      exact fits_reachRepeat (fun _ hle => fits_dispatch (fits_reach element hle) hle) (by omega)
  | ⟨.model fields, _, _, _, _, _⟩, offset, _, hle => by
      rw [Schema.layout, Spec.size, Shape.layout, Node.size] at hle
      exact fits_fieldsReach fields (by omega)

theorem fits_tupleReach : ∀ (values : List Schema) {offset length : Nat},
    offset + sizes (layouts values) ≤ length → Fits (tupleReach values) offset length
  | [], _, _, _ => fits_none _ _
  | child :: values, offset, _, hle => by
      rw [layouts, sizes] at hle
      rw [tupleReach, fits_further, fits_map, Schema.size, size_eq]
      exact ⟨fits_dispatch (fits_reach child (by omega)) (by omega), fits_tupleReach values (by omega)⟩

theorem fits_fieldsReach : ∀ (fields : List (String × Schema)) {offset length : Nat},
    offset + fieldSizes (fieldLayouts fields) ≤ length → Fits (fieldsReach fields) offset length
  | [], _, _, _ => fits_none _ _
  | (_, child) :: fields, offset, _, hle => by
      rw [fieldLayouts, fieldSizes] at hle
      rw [fieldsReach, fits_further, fits_map, Schema.size, size_eq]
      exact ⟨fits_dispatch (fits_reach child (by omega)) (by omega), fits_fieldsReach fields (by omega)⟩

end

/-- **What either engine packs, both read back**, wherever it stands in a buffer, if no composite has padding. -/
theorem engines_read_back (s : Schema) (order : Option ByteOrder)
    (hid : s.Identity F ((resolveOrder order s.order).endian platform)) (hkept : s.unpadded = true)
    {value : Value} (hconf : s.layout.conforms F value = true) : ∃ bytes,
      s.pyPack F platform order value = some bytes ∧
      (programPack F platform s.layout value order).toOption = some bytes ∧ ∀ front back,
        s.pyUnpack F platform order (front ++ bytes ++ back) front.length = some value ∧
        (programUnpack F platform s.layout (front ++ bytes ++ back) front.length order).toOption = some value := by
  have horder : s.layout.order = s.order := by
    obtain ⟨shape, own, before, after, packer, validator⟩ := s
    rfl
  simp only [programPack, programUnpack, horder]
  obtain ⟨bytes, hbytes, hlike, -, -⟩ := pyPack_packsLike F platform s order value hid hconf
  obtain ⟨native, hnative, hlength, hreads⟩ :=
    spec_roundTrips F s.layout ((resolveOrder order s.order).endian platform) value hconf
  obtain rfl : bytes = native := by simpa using (hlike hkept []).symm.trans (hnative [])
  refine ⟨bytes, hbytes, by rw [hnative]; rfl, fun front back => ?_⟩
  have hle : front.length + s.layout.size ≤ (front ++ bytes ++ back).length := by
    simp only [List.length_append, hlength]
    omega
  obtain ⟨read, hread, hsame⟩ :=
    (pyUnpack_unpacksLike F platform s order (front ++ bytes ++ back) front.length hid hkept).1 (fits_reach s hle)
  have hneed := s.layout.need_le_size
  obtain rfl : read = value := congrArg Prod.fst (Except.ok.inj ((hsame (by omega)).symm.trans (hreads front back)))
  exact ⟨hread, by rw [hreads front back]; rfl⟩

end Agreement

/-- A flag and a signed word, the flag packed by a function of its own. -/
def markedPair : Schema :=
  { shape := .model
      [("flag", { shape := .scalar .bool, packer := some fun v => [if v.isTruthy then 1 else 0] }),
       ("level", { shape := .scalar .int16, paddingBefore := 1 })]
    order := some .big }

theorem markedPair_identity (endian : Endian) : markedPair.Identity zeroAndOne endian := by
  have hnone : IdentityValidator none := fun f h => by simp at h
  simp only [markedPair, Schema.Identity, fieldsIdentity]
  refine ⟨hnone, ⟨hnone, fun f hf value _ => ?_⟩, ⟨hnone, fun f hf => by simp at hf⟩, trivial⟩
  obtain rfl : (fun v : Value => [if v.isTruthy then 1 else 0]) = f := by simpa using hf
  rfl

theorem engines_read_back_markedPair : ∃ bytes, markedPair.pyPack zeroAndOne .little none
      (.model [("flag", .bool true), ("level", .int (-2))]) = some bytes ∧
    (programPack zeroAndOne .little markedPair.layout (.model [("flag", .bool true), ("level", .int (-2))]) none).toOption =
      some bytes ∧ ∀ front back,
    markedPair.pyUnpack zeroAndOne .little none (front ++ bytes ++ back) front.length =
      some (.model [("flag", .bool true), ("level", .int (-2))]) ∧
    (programUnpack zeroAndOne .little markedPair.layout (front ++ bytes ++ back) front.length none).toOption =
      some (.model [("flag", .bool true), ("level", .int (-2))]) :=
  engines_read_back zeroAndOne .little markedPair none (markedPair_identity _) (by decide) (by decide)

/-- One byte in a tuple with a padding byte of its own. -/
def paddedTuple : Schema :=
  { shape := .tuple [{ shape := .scalar .uint8 }], paddingBefore := 1 }

/-- The same, with a validator on the nested leaf that returns what it is given. -/
def paddedTupleMarked : Schema :=
  { shape := .tuple [{ shape := .scalar .uint8, validator := some id }], paddingBefore := 1 }

end Ceres.Data.Binary
