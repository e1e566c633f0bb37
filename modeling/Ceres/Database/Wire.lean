/-
  File:      Ceres/Database/Wire.lean
  Subject:   READING A FILTER FROM ITS SERIALIZED FORM (`rust/ceres-database/src/filter.rs`:
             `Schema::resolve`, `Parsed::apply`, `Parsed::from_yaml`, `Schema::group_children`).

  A filter travels as a mapping. Each key has a role that the table's fields give it, and is applied to the
  node the mapping stands for; the groups hold mappings again.

  * `KeyRole`, `Schema.resolve` -- what a key means; `ValueReaders` -- how its scalars read;
  * `applyRole` -- one key on a node's own conditions; `readEntries`, `subfilter`, `groupChildren` -- a
    mapping; a refusal is `none`, without its text;
  * `readEntries_role`, `readEntries_group` -- one key at a time;
  * `fromJson_holds` -- what the keys keep holds of every node; **`fromJson_guaranteed`** -- a filter that is
    read is well formed for its table, and accepted.
-/
import Ceres.Database.Ranges
import Ceres.Database.Parsed

namespace Ceres.Database

open Ceres.Library
open Ceres.Data

/-! ## 1. What a key means -/

inductive ClockOp where
  | afterHour
  | beforeHour
  | afterMinute
  | beforeMinute
  deriving DecidableEq, Repr

inductive BoundOp where
  | minimum
  | maximum
  deriving DecidableEq, Repr

inductive GroupOp where
  | and_
  | or_
  deriving DecidableEq, Repr

deriving instance DecidableEq, Repr for WindowOp
deriving instance DecidableEq, Repr for SubsampleOp

/-- What one wire key means for a table. -/
inductive KeyRole where
  | equality (field : FilterField)
  | operation (field : FilterField) (kind : OperationKind)
  | root
  | group (operator : GroupOp)
  | subsample (operator : SubsampleOp)
  | window (operator : WindowOp)
  | clock (operator : ClockOp)
  | bound (operator : BoundOp)
  | computed (predicate : Computed)
  | order
  | limit
  | offset
  deriving DecidableEq, Repr

/-- The keys a timestamp field brings. -/
def timestampKeys : List (String × KeyRole) :=
  [("after", .window .after), ("before", .window .before), ("timespan", .window .timespan),
    ("max_age", .window .maxAge), ("min_age", .window .minAge), ("after_hour", .clock .afterHour),
    ("before_hour", .clock .beforeHour), ("after_minute", .clock .afterMinute),
    ("before_minute", .clock .beforeMinute), ("subsample_every", .subsample .every),
    ("subsample", .subsample .count), ("subsample_select", .subsample .select)]

/-- The keys a field brings besides its own and its operations'. -/
def FieldFamily.keys : FieldFamily → List (String × KeyRole)
  | .address => [("root", .root)]
  | .timestamp => timestampKeys
  | .level => [("min_level", .bound .minimum), ("max_level", .bound .maximum)]
  | _ => []

/-- What a key means by one field. -/
def FilterField.role (field : FilterField) (key : String) : Option KeyRole :=
  if field.key = key ∧ field.family.native = true then some (.equality field)
  else
    match field.operations.find? fun operation => operation.key = key with
    | some operation => some (.operation field operation.kind)
    | none => (field.family.keys.find? fun entry => entry.1 = key).map (·.2)

/-- The keys every table shares. -/
def sharedKeys : List (String × KeyRole) :=
  [("order", .order), ("limit", .limit), ("offset", .offset), ("or", .group .or_), ("and", .group .and_)]

/-- Resolve what one wire key means for a table; `none` is refused. -/
def Schema.resolve (schema : Schema) (key : String) : Option KeyRole :=
  match (sharedKeys.find? fun entry => entry.1 = key).map (·.2) with
  | some role => some role
  | none =>
    if schema.delegated.contains key then none
    else
      match schema.computed.find? fun predicate => predicate.key = key with
      | some predicate => some (.computed predicate)
      | none => schema.fields.findSome? fun field => field.role key

/-- Whether naming null for a field filters for null. -/
def Schema.nullableKey (schema : Schema) (key : String) : Bool :=
  schema.fields.any fun field => field.key == key && field.family == .jsonValue

/-! ## 2. Scalars -/

/-- How the texts of a filter read: what comes from other crates, and a subfilter given as text. -/
structure ValueReaders (F : Type) where
  speedate : Text → Option SpeedateDuration
  cleaned : Text → Text
  floats : Floats F
  timestamp : Text → Option Int
  uuid : Text → Option Uuid
  email : Text → Option Text
  address : Text → Bool
  u32 : Text → Option Nat
  u64 : Text → Option UInt64
  floatText : UInt64 → Text
  jsonText : Json → Text
  order : Text → Option OrderTerm
  subfilter : Text → Option Finished

section Reading

variable {F : Type} (readers : ValueReaders F)

def isNullJson : Json → Bool
  | .null => true
  | _ => false

/-- One scalar in the text form the wire parsers read. -/
def yamlScalar : Json → Option Text
  | .string text => some text
  | .null => some "null".toList
  | .integer n => some (toString n).toList
  | .float bits => some (readers.floatText bits)
  | .boolean b => some (if b then "true".toList else "false".toList)
  | _ => none

def scalars : Json → Option (List Text)
  | .array elements => elements.mapM (yamlScalar readers)
  | value => (yamlScalar readers value).map fun scalar => [scalar]

/-- A boolean as the wire spells it. -/
def wireBoolean (text : Text) : Option Bool :=
  if text = "true".toList ∨ text = "True".toList then some true
  else if text = "false".toList ∨ text = "False".toList then some false
  else none

/-- One equality value, parsed by the field's family. -/
def parseValues (field : FilterField) (text : Text) : Option Values :=
  match field.family with
  | .uuid => (readers.uuid text).map fun id => .uuids [id]
  | .address => none
  | .timestamp => (readers.timestamp text).map fun stamp => .stamps [stamp]
  | .text => some (.texts [text])
  | .email => (readers.email text).map fun email => .texts [email]
  | .values admissible => if admissible.contains text then some (.texts [text]) else none
  | .level => (levelPosition text).map fun _ => .texts [text]
  | .bytes => some (.bytes [latin1Encode text])
  | .json => none
  | .boolean => (wireBoolean text).map .boolean
  | .jsonValue => some (.texts [text])
  | .plainAddress => if readers.address text then some (.texts [text]) else none

/-- More values of a field behind those it has. A scalar field takes one value. -/
def Values.extend : Values → Values → Option Values
  | .uuids existing, .uuids more => some (.uuids (existing ++ more))
  | .texts existing, .texts more => some (.texts (existing ++ more))
  | .stamps existing, .stamps more => some (.stamps (existing ++ more))
  | .bytes existing, .bytes more => some (.bytes (existing ++ more))
  | _, _ => none

def pushValues (key : String) (parsed : Values) : List (String × Values) → Option (List (String × Values))
  | [] => some [(key, parsed)]
  | entry :: rest =>
    if entry.1 = key then (entry.2.extend parsed).map fun values => (entry.1, values) :: rest
    else (pushValues key parsed rest).map fun rest => entry :: rest

/-- Add one equality value for a field. -/
def pushEquality (field : FilterField) (own : Conditions) (text : Text) : Option Conditions :=
  if field.family = .address then
    match AddressSelector.push own.address text with
    | .ok selector => some { own with address := some selector }
    | .error _ => none
  else
    (parseValues readers field text).bind fun parsed =>
      (pushValues field.key parsed own.equalities).map fun equalities => { own with equalities }

/-- The operation's value, which its family types. -/
def operationValues (field : FilterField) (text : Text) : Values :=
  match field.family with
  | .bytes => .bytes [latin1Encode text]
  | _ => .texts [text]

def pushFilter (field : FilterField) (kind : OperationKind) (parsed : Values) :
    List OperationFilter → Option (List OperationFilter)
  | [] => some [⟨field, kind, parsed⟩]
  | held :: rest =>
    if held.field.key = field.key ∧ held.kind = kind then
      (held.values.extend parsed).map fun values => { held with values } :: rest
    else (pushFilter field kind parsed rest).map fun rest => held :: rest

/-- Add one operation filter value; of one field's operations the values share a family. -/
def pushOperation (field : FilterField) (kind : OperationKind) (own : Conditions) (text : Text) :
    Option Conditions :=
  (pushFilter field kind (operationValues field text) own.operations).map fun operations =>
    { own with operations }

def pushAll (push : Conditions → Text → Option Conditions) : Conditions → List Text → Option Conditions
  | own, [] => some own
  | own, text :: texts => (push own text).bind fun own => pushAll push own texts

def applyClock (own : Conditions) (operator : ClockOp) (text : Text) : Option Conditions :=
  match operator with
  | .afterHour =>
    ((readers.u32 text).filter fun bound => bound ≤ 24).bind fun bound =>
      (setOnce own.afterHour bound).map fun slot => { own with afterHour := slot }
  | .beforeHour =>
    ((readers.u32 text).filter fun bound => bound ≤ 24).bind fun bound =>
      (setOnce own.beforeHour bound).map fun slot => { own with beforeHour := slot }
  | .afterMinute =>
    ((readers.u32 text).filter fun bound => bound ≤ 60).bind fun bound =>
      (setOnce own.afterMinute bound).map fun slot => { own with afterMinute := slot }
  | .beforeMinute =>
    ((readers.u32 text).filter fun bound => bound ≤ 60).bind fun bound =>
      (setOnce own.beforeMinute bound).map fun slot => { own with beforeMinute := slot }

def applyBound (own : Conditions) (operator : BoundOp) (text : Text) : Option Conditions :=
  match operator with
  | .minimum =>
    (levelPosition text).bind fun position =>
      (setOnce own.minLevel position).map fun slot => { own with minLevel := slot }
  | .maximum =>
    (levelPosition text).bind fun position =>
      (setOnce own.maxLevel position).map fun slot => { own with maxLevel := slot }

def applyRole (own : Conditions) (role : KeyRole) (value : Json) : Option Conditions :=
  match role with
  | .equality field =>
    if field.family = .jsonValue then pushEquality readers field own (readers.jsonText value)
    else
      (scalars readers value).bind fun texts =>
        if field.family.scalar && texts.length != 1 then none
        else
          pushAll (pushEquality readers field)
            (if texts.isEmpty then { own with impossible := true } else own) texts
  | .operation field kind =>
    (scalars readers value).bind fun texts =>
      pushAll (pushOperation field kind) (if texts.isEmpty then { own with impossible := true } else own) texts
  | .root =>
    (yamlScalar readers value).bind fun text =>
      if validAddress text then (setOnce own.root text).map fun slot => { own with root := slot } else none
  | .window operator =>
    (yamlScalar readers value).bind fun text =>
      applyWindow readers.speedate readers.cleaned readers.floats readers.timestamp own operator text
  | .subsample operator =>
    (yamlScalar readers value).bind fun text =>
      applySubsample readers.speedate readers.cleaned readers.floats readers.u64 own operator text
  | .clock operator => (yamlScalar readers value).bind fun text => applyClock readers own operator text
  | .bound operator => (yamlScalar readers value).bind fun text => applyBound own operator text
  | .computed predicate =>
    (yamlScalar readers value).bind fun text =>
      (wireBoolean text).map fun sense => { own with computed := own.computed ++ [(predicate, sense)] }
  | _ => none

/-! ## 3. Mappings -/

/-- A node mid-parse. -/
structure Reading where
  own : Conditions := {}
  order : List OrderTerm := []
  limit : Option UInt64 := none
  offset : Option UInt64 := none
  andGroup : List Finished := []
  orGroup : List Finished := []

/-- Apply one key that holds no subfilters. -/
def Reading.apply (reading : Reading) (role : KeyRole) (value : Json) : Option Reading :=
  match role with
  | .order =>
    ((scalars readers value).bind fun texts => texts.mapM readers.order).map fun terms =>
      { reading with order := reading.order ++ terms }
  | .limit =>
    (yamlScalar readers value).bind fun text => (readers.u64 text).bind fun limit =>
      (setOnce reading.limit limit).map fun slot => { reading with limit := slot }
  | .offset =>
    (yamlScalar readers value).bind fun text => (readers.u64 text).bind fun offset =>
      (setOnce reading.offset offset).map fun slot => { reading with offset := slot }
  | role => (applyRole readers reading.own role value).map fun own => { reading with own }

/-- Join the subfilters of a group. -/
def Reading.join (reading : Reading) (operator : GroupOp) (children : List Finished) : Reading :=
  match operator with
  | .and_ => { reading with andGroup := reading.andGroup ++ children }
  | .or_ => { reading with orGroup := reading.orGroup ++ children }

def Reading.finish (reading : Reading) : Option Finished :=
  (finishNode reading.own reading.order reading.limit reading.offset reading.andGroup reading.orGroup).toOption

variable (schema : Schema)

mutual

/-- The keys of a mapping, one after the other. A null leaves its field unset. -/
def readEntries : List (String × Json) → Reading → Option Reading
  | [], reading => some reading
  | (key, value) :: rest, reading =>
    if isNullJson value && !schema.nullableKey key then readEntries rest reading
    else
      match schema.resolve key with
      | none => none
      | some (.group operator) =>
        (groupChildren value).bind fun children => readEntries rest (reading.join operator children)
      | some role => (reading.apply readers role value).bind fun reading => readEntries rest reading

/-- One subfilter of a group. -/
def subfilter : Json → Option Finished
  | .string text => readers.subfilter text
  | .object fields => (readEntries fields {}).bind Reading.finish
  | _ => none

def groupChildren : Json → Option (List Finished)
  | .null => some []
  | .array elements => subfilters elements
  | .string text => (readers.subfilter text).map fun child => [child]
  | .object fields => ((readEntries fields {}).bind Reading.finish).map fun child => [child]
  | _ => none

def subfilters : List Json → Option (List Finished)
  | [] => some []
  | element :: elements =>
    (subfilter element).bind fun child => (subfilters elements).map fun children => child :: children

end

/-- Parse a filter from its serialized form. -/
def fromJson (fields : Object) : Option Finished := (readEntries readers schema fields {}).bind Reading.finish

/-! ## 4. One key at a time -/

theorem readEntries_role {key : String} {value : Json} {role : KeyRole} {own : Conditions} {reading : Reading}
    (hvalue : isNullJson value = false) (hresolve : schema.resolve key = some role)
    (happly : applyRole readers reading.own role value = some own) (rest : List (String × Json)) :
    readEntries readers schema ((key, value) :: rest) reading =
      readEntries readers schema rest { reading with own } := by
  rw [readEntries, hvalue, Bool.false_and, if_neg Bool.false_ne_true, hresolve]
  cases role with
  | group => cases happly
  | order => cases happly
  | limit => cases happly
  | offset => cases happly
  | _ => simp only [Reading.apply, happly, Option.map_some, Option.bind_some]

theorem readEntries_group {key : String} {elements : List Json} {operator : GroupOp} {children : List Finished}
    (hresolve : schema.resolve key = some (.group operator))
    (hchildren : subfilters readers schema elements = some children) (rest : List (String × Json))
    (reading : Reading) : readEntries readers schema ((key, .array elements) :: rest) reading =
      readEntries readers schema rest (reading.join operator children) := by
  have hnull : isNullJson (.array elements) = false := rfl
  rw [readEntries, hnull, Bool.false_and, if_neg Bool.false_ne_true, hresolve]
  simp only [groupChildren, hchildren, Option.bind_some]

theorem resolve_group (schema : Schema) :
    schema.resolve "and" = some (.group .and_) ∧ schema.resolve "or" = some (.group .or_) :=
  ⟨rfl, rfl⟩

end Reading

/-! ## 5. What a read filter satisfies -/

section Holds

variable {F : Type} {readers : ValueReaders F} {schema : Schema} {P : Conditions → Prop}

structure Reading.Holds (P : Conditions → Prop) (reading : Reading) : Prop where
  own : P reading.own
  andGroup : ∀ child ∈ reading.andGroup, child.node.All P
  orGroup : ∀ child ∈ reading.orGroup, child.node.All P

theorem foldl_hoist_node (children : List Finished) : ∀ parent : Finished,
    (children.foldl Finished.hoist parent).node = parent.node := by
  induction children with
  | nil => exact fun _ => rfl
  | cons child children ih => exact fun parent => ih (parent.hoist child)

theorem Reading.Holds.finish {reading : Reading} (h : reading.Holds P) {finished : Finished}
    (hfinish : reading.finish = some finished) : finished.node.All P := by
  unfold Reading.finish finishNode at hfinish
  split at hfinish
  · cases hfinish
  · split at hfinish
    · cases hfinish
    · obtain rfl := Option.some.inj hfinish
      rw [foldl_hoist_node]
      exact .node _ _ _ h.own (List.forall_mem_map.mpr h.andGroup) (List.forall_mem_map.mpr h.orGroup)

theorem Reading.Holds.join {reading : Reading} (h : reading.Holds P) (operator : GroupOp) {children : List Finished}
    (hchildren : ∀ child ∈ children, child.node.All P) : (reading.join operator children).Holds P := by
  cases operator with
  | and_ => exact { h with andGroup := List.forall_mem_append.mpr ⟨h.andGroup, hchildren⟩ }
  | or_ => exact { h with orGroup := List.forall_mem_append.mpr ⟨h.orGroup, hchildren⟩ }

/-- The roles keep a property of a node's own conditions. -/
def Keeps (readers : ValueReaders F) (schema : Schema) (P : Conditions → Prop) : Prop :=
  ∀ key role own value parsed, schema.resolve key = some role → applyRole readers own role value = some parsed →
    P own → P parsed

theorem Reading.Holds.apply (hkeeps : Keeps readers schema P) {reading parsed : Reading} (h : reading.Holds P)
    {key : String} {role : KeyRole} {value : Json} (hresolve : schema.resolve key = some role)
    (happly : reading.apply readers role value = some parsed) : parsed.Holds P := by
  have hown : ∀ own, applyRole readers reading.own role value = some own → P own := fun own hrole =>
    hkeeps key role reading.own value own hresolve hrole h.own
  unfold Reading.apply at happly
  split at happly
  · obtain ⟨terms, -, rfl⟩ := Option.map_eq_some_iff.mp happly
    exact { h with }
  · obtain ⟨text, -, happly⟩ := Option.bind_eq_some_iff.mp happly
    obtain ⟨limit, -, happly⟩ := Option.bind_eq_some_iff.mp happly
    obtain ⟨slot, -, rfl⟩ := Option.map_eq_some_iff.mp happly
    exact { h with }
  · obtain ⟨text, -, happly⟩ := Option.bind_eq_some_iff.mp happly
    obtain ⟨offset, -, happly⟩ := Option.bind_eq_some_iff.mp happly
    obtain ⟨slot, -, rfl⟩ := Option.map_eq_some_iff.mp happly
    exact { h with }
  · obtain ⟨own, hrole, rfl⟩ := Option.map_eq_some_iff.mp happly
    exact { h with own := hown own hrole }

variable (hkeeps : Keeps readers schema P) (hempty : P {})
  (hsub : ∀ text child, readers.subfilter text = some child → child.node.All P)
include hkeeps hempty hsub

mutual

/-- **What the keys keep holds of every node that is read.** -/
theorem readEntries_holds : ∀ {entries : List (String × Json)} {reading parsed : Reading},
    readEntries readers schema entries reading = some parsed → reading.Holds P → parsed.Holds P
  | [], reading, parsed, h, hholds => by
      rw [readEntries] at h
      exact Option.some.inj h ▸ hholds
  | (key, value) :: rest, reading, parsed, h, hholds => by
      rw [readEntries] at h
      split at h
      · exact readEntries_holds h hholds
      · split at h
        · cases h
        · obtain ⟨children, hchildren, h⟩ := Option.bind_eq_some_iff.mp h
          exact readEntries_holds h (hholds.join _ (groupChildren_holds hchildren))
        · rename_i role _ hresolve
          obtain ⟨next, hnext, h⟩ := Option.bind_eq_some_iff.mp h
          exact readEntries_holds h (hholds.apply hkeeps hresolve hnext)

theorem subfilter_holds : ∀ {json : Json} {child : Finished}, subfilter readers schema json = some child →
    child.node.All P
  | .string text, _, h => hsub text _ (by rwa [subfilter] at h)
  | .object fields, _, h => by
      rw [subfilter] at h
      obtain ⟨reading, hreading, hfinish⟩ := Option.bind_eq_some_iff.mp h
      exact (readEntries_holds hreading ⟨hempty, by simp, by simp⟩).finish hfinish
  | .null, _, h | .boolean _, _, h | .integer _, _, h | .float _, _, h | .array _, _, h => by
      rw [subfilter] at h <;> simp_all

theorem groupChildren_holds : ∀ {json : Json} {children : List Finished},
    groupChildren readers schema json = some children → ∀ child ∈ children, child.node.All P
  | .null, _, h => by
      rw [groupChildren] at h
      exact Option.some.inj h ▸ by simp
  | .array elements, _, h => subfilters_holds (by rwa [groupChildren] at h)
  | .string text, _, h => by
      rw [groupChildren] at h
      obtain ⟨child, hchild, rfl⟩ := Option.map_eq_some_iff.mp h
      exact List.forall_mem_singleton.mpr (hsub text child hchild)
  | .object fields, _, h => by
      rw [groupChildren] at h
      obtain ⟨child, hchild, rfl⟩ := Option.map_eq_some_iff.mp h
      obtain ⟨reading, hreading, hfinish⟩ := Option.bind_eq_some_iff.mp hchild
      exact List.forall_mem_singleton.mpr ((readEntries_holds hreading ⟨hempty, by simp, by simp⟩).finish hfinish)
  | .boolean _, _, h | .integer _, _, h | .float _, _, h => by
      rw [groupChildren] at h <;> simp_all

theorem subfilters_holds : ∀ {elements : List Json} {children : List Finished},
    subfilters readers schema elements = some children → ∀ child ∈ children, child.node.All P
  | [], _, h => by
      rw [subfilters] at h
      exact Option.some.inj h ▸ by simp
  | element :: elements, _, h => by
      rw [subfilters] at h
      obtain ⟨child, hchild, h⟩ := Option.bind_eq_some_iff.mp h
      obtain ⟨children, hchildren, rfl⟩ := Option.map_eq_some_iff.mp h
      exact List.forall_mem_cons.mpr ⟨subfilter_holds hchild, subfilters_holds hchildren⟩

end

theorem fromJson_holds {fields : Object} {finished : Finished} (h : fromJson readers schema fields = some finished) :
    finished.node.All P := by
  obtain ⟨reading, hreading, hfinish⟩ := Option.bind_eq_some_iff.mp h
  exact (readEntries_holds hkeeps hempty hsub hreading ⟨hempty, by simp, by simp⟩).finish hfinish

end Holds

/-! ## 6. What reading guarantees -/

/-- The field or predicate of a role is the schema's. -/
def KeyRole.Of (schema : Schema) : KeyRole → Prop
  | equality field => field ∈ schema.fields
  | operation field _ => field ∈ schema.fields ∧ field.operations ≠ []
  | computed predicate => predicate ∈ schema.computed
  | _ => True

theorem of_keys (schema : Schema) (family : FieldFamily) : ∀ entry ∈ family.keys, entry.2.Of schema := by
  cases family <;> simp [FieldFamily.keys, timestampKeys, KeyRole.Of]

theorem resolve_of {schema : Schema} {key : String} {role : KeyRole} (h : schema.resolve key = some role) :
    role.Of schema := by
  unfold Schema.resolve at h
  split at h
  · rename_i shared hshared
    obtain rfl := Option.some.inj h
    obtain ⟨entry, hentry, rfl⟩ := Option.map_eq_some_iff.mp hshared
    have hall : ∀ entry ∈ sharedKeys, entry.2.Of schema := by simp [sharedKeys, KeyRole.Of]
    exact hall entry (List.mem_of_find?_eq_some hentry)
  · split at h
    · cases h
    · split at h
      · rename_i predicate hpredicate
        obtain rfl := Option.some.inj h
        exact List.mem_of_find?_eq_some hpredicate
      · obtain ⟨field, hfield, h⟩ := List.exists_of_findSome?_eq_some h
        unfold FilterField.role at h
        split at h
        · obtain rfl := Option.some.inj h
          exact hfield
        · split at h
          · rename_i operation hoperation
            obtain rfl := Option.some.inj h
            exact ⟨hfield, List.ne_nil_of_mem (List.mem_of_find?_eq_some hoperation)⟩
          · obtain ⟨entry, hentry, rfl⟩ := Option.map_eq_some_iff.mp h
            exact of_keys schema field.family entry (List.mem_of_find?_eq_some hentry)

/-- Operations are given to fields of text, of bytes and of JSON. -/
theorem operated (table : Table) : ∀ field ∈ table.schema.fields, field.operations ≠ [] →
    field.family ∈ [FieldFamily.bytes, .text, .email, .json] := by
  cases table <;> decide

structure Conditions.Guaranteed (schema : Schema) (own : Conditions) : Prop where
  wellFormed : own.WellFormed schema
  accepted : own.Accepted

section Values

variable {values more extended : Values} {family : FieldFamily}

theorem fits_extend (hfits : values.fits family = true) (h : values.extend more = some extended) :
    extended.fits family = true := by
  cases values <;> cases more <;> cases h <;> cases family <;> simp_all [Values.fits]

theorem fitsOperation_extend (hfits : values.fitsOperation family = true) (h : values.extend more = some extended) :
    extended.fitsOperation family = true := by
  cases values <;> cases more <;> cases h <;> cases family <;> simp_all [Values.fitsOperation]

end Values

section Roles

variable {F : Type} {readers : ValueReaders F} {field : FilterField} {text : Text} {parsed : Values}

theorem parseValues_fits (h : parseValues readers field text = some parsed) : parsed.fits field.family = true := by
  unfold parseValues at h
  split at h
  all_goals
    rename_i hfamily
    rw [hfamily]
    simp only [Option.map_eq_some_iff, Option.ite_none_right_eq_some, Option.some.injEq, reduceCtorEq] at h
  all_goals
    obtain ⟨_, -, rfl⟩ := h
    rfl

theorem operationValues_fits (h : field.family ∈ [FieldFamily.bytes, .text, .email, .json]) (text : Text) :
    (operationValues field text).fitsOperation field.family = true := by
  simp only [List.mem_cons, List.not_mem_nil, or_false] at h
  unfold operationValues
  rcases h with h | h | h | h <;> rw [h] <;> rfl

theorem pushValues_forall {Q : String × Values → Prop} {key : String} (hnew : Q (key, parsed))
    (hextend : ∀ entry values, Q entry → entry.2.extend parsed = some values → Q (entry.1, values)) :
    ∀ {entries pushed : List (String × Values)}, pushValues key parsed entries = some pushed →
      (∀ entry ∈ entries, Q entry) → ∀ entry ∈ pushed, Q entry
  | [], _, h, _ => Option.some.inj h ▸ List.forall_mem_singleton.mpr hnew
  | entry :: rest, _, h, hall => by
      obtain ⟨hentry, hrest⟩ := List.forall_mem_cons.mp hall
      rw [pushValues] at h
      split at h
      · obtain ⟨values, hvalues, rfl⟩ := Option.map_eq_some_iff.mp h
        exact List.forall_mem_cons.mpr ⟨hextend entry values hentry hvalues, hrest⟩
      · obtain ⟨pushed, hpushed, rfl⟩ := Option.map_eq_some_iff.mp h
        exact List.forall_mem_cons.mpr ⟨hentry, pushValues_forall hnew hextend hpushed hrest⟩

theorem pushFilter_forall {Q : OperationFilter → Prop} {kind : OperationKind} (hnew : Q ⟨field, kind, parsed⟩)
    (hextend : ∀ held values, Q held → held.values.extend parsed = some values → Q { held with values }) :
    ∀ {filters pushed : List OperationFilter}, pushFilter field kind parsed filters = some pushed →
      (∀ held ∈ filters, Q held) → ∀ held ∈ pushed, Q held
  | [], _, h, _ => Option.some.inj h ▸ List.forall_mem_singleton.mpr hnew
  | held :: rest, _, h, hall => by
      obtain ⟨hheld, hrest⟩ := List.forall_mem_cons.mp hall
      rw [pushFilter] at h
      split at h
      · obtain ⟨values, hvalues, rfl⟩ := Option.map_eq_some_iff.mp h
        exact List.forall_mem_cons.mpr ⟨hextend held values hheld hvalues, hrest⟩
      · obtain ⟨pushed, hpushed, rfl⟩ := Option.map_eq_some_iff.mp h
        exact List.forall_mem_cons.mpr ⟨hheld, pushFilter_forall hnew hextend hpushed hrest⟩

variable {table : Table} {own next : Conditions}

theorem pushEquality_guaranteed (hfield : field ∈ table.schema.fields) (hown : own.Guaranteed table.schema)
    (h : pushEquality readers field own text = some next) : next.Guaranteed table.schema := by
  unfold pushEquality at h
  split at h
  · rename_i hfamily
    split at h
    · obtain rfl := Option.some.inj h
      exact ⟨{ hown.wellFormed with address := fun _ => ⟨field, hfield, hfamily⟩ }, { hown.accepted with }⟩
    · cases h
  · obtain ⟨parsed, hparsed, h⟩ := Option.bind_eq_some_iff.mp h
    obtain ⟨equalities, hpushed, rfl⟩ := Option.map_eq_some_iff.mp h
    refine ⟨{ hown.wellFormed with equalities := ?_ }, { hown.accepted with }⟩
    refine pushValues_forall ⟨field, hfield, rfl, parseValues_fits hparsed⟩ ?_ hpushed hown.wellFormed.equalities
    rintro entry values ⟨held, hheld, hkey, hfits⟩ hextended
    exact ⟨held, hheld, hkey, fits_extend hfits hextended⟩

theorem pushOperation_guaranteed {kind : OperationKind} (hfield : field ∈ table.schema.fields)
    (hoperations : field.operations ≠ []) (hown : own.Guaranteed table.schema)
    (h : pushOperation field kind own text = some next) : next.Guaranteed table.schema := by
  obtain ⟨operations, hpushed, rfl⟩ := Option.map_eq_some_iff.mp h
  refine ⟨{ hown.wellFormed with operations := ?_ }, { hown.accepted with }⟩
  refine pushFilter_forall ⟨hfield, operationValues_fits (operated table field hfield hoperations) text⟩ ?_ hpushed
    hown.wellFormed.operations
  exact fun held values hheld hextended => ⟨hheld.1, fitsOperation_extend hheld.2 hextended⟩

theorem pushAll_keeps {P : Conditions → Prop} {push : Conditions → Text → Option Conditions}
    (hpush : ∀ own text next, P own → push own text = some next → P next) :
    ∀ (texts : List Text) {own next : Conditions}, P own → pushAll push own texts = some next → P next
  | [], _, _, hown, h => Option.some.inj h ▸ hown
  | text :: texts, own, _, hown, h => by
      obtain ⟨first, hfirst, hrest⟩ := Option.bind_eq_some_iff.mp h
      exact pushAll_keeps hpush texts (hpush own text first hown hfirst) hrest

theorem applyRole_keeps (hfloats : readers.floats.Casts)
    (htimestamp : ∀ text t, readers.timestamp text = some t → PARSED_MIN ≤ t ∧ t ≤ PARSED_MAX) :
    Keeps readers table.schema (Conditions.Guaranteed table.schema) := by
  intro key role own value next hresolve h hown
  have hof := resolve_of hresolve
  have hmarked : ∀ texts : List Text,
      (if texts.isEmpty then { own with impossible := true } else own).Guaranteed table.schema := by
    intro texts
    split
    · exact ⟨{ hown.wellFormed with }, { hown.accepted with }⟩
    · exact hown
  cases role with
  | equality field =>
    rw [applyRole] at h
    split at h
    · exact pushEquality_guaranteed hof hown h
    · obtain ⟨texts, -, h⟩ := Option.bind_eq_some_iff.mp h
      obtain ⟨-, h⟩ := Option.ite_none_left_eq_some.mp h
      exact pushAll_keeps (fun _ _ _ hown hpush => pushEquality_guaranteed hof hown hpush) texts (hmarked texts) h
  | operation field kind =>
    obtain ⟨texts, -, h⟩ := Option.bind_eq_some_iff.mp h
    exact pushAll_keeps (fun _ _ _ hown hpush => pushOperation_guaranteed hof.1 hof.2 hown hpush) texts (hmarked texts) h
  | root =>
    obtain ⟨text, -, h⟩ := Option.bind_eq_some_iff.mp h
    obtain ⟨hvalid, h⟩ := Option.ite_none_right_eq_some.mp h
    obtain ⟨slot, hslot, rfl⟩ := Option.map_eq_some_iff.mp h
    refine ⟨{ hown.wellFormed with root := ?_ }, { hown.accepted with }⟩
    rw [setOnce_eq_some hslot]
    exact fun r hr => Option.some.inj hr ▸ hvalid
  | window operator =>
    obtain ⟨text, -, h⟩ := Option.bind_eq_some_iff.mp h
    refine ⟨?_, accepted_applyWindow hfloats htimestamp hown.accepted h⟩
    cases operator
    all_goals
      simp only [applyWindow, Option.bind_eq_some_iff, Option.map_eq_some_iff, Option.ite_none_left_eq_some] at h
      first
      | obtain ⟨_, -, _, -, rfl⟩ := h
      | obtain ⟨_, -, -, _, -, rfl⟩ := h
      exact { hown.wellFormed with }
  | subsample operator =>
    obtain ⟨text, -, h⟩ := Option.bind_eq_some_iff.mp h
    refine ⟨?_, accepted_applySubsample hown.accepted h⟩
    cases operator
    all_goals
      simp only [applySubsample, Option.bind_eq_some_iff, Option.map_eq_some_iff, Option.ite_none_left_eq_some] at h
      first
      | obtain ⟨_, -, _, -, rfl⟩ := h
      | obtain ⟨_, -, -, _, -, rfl⟩ := h
      exact { hown.wellFormed with }
  | clock operator =>
    obtain ⟨text, -, h⟩ := Option.bind_eq_some_iff.mp h
    cases operator
    all_goals
      obtain ⟨bound, -, h⟩ := Option.bind_eq_some_iff.mp h
      obtain ⟨slot, -, rfl⟩ := Option.map_eq_some_iff.mp h
      exact ⟨{ hown.wellFormed with }, { hown.accepted with }⟩
  | bound operator =>
    obtain ⟨text, -, h⟩ := Option.bind_eq_some_iff.mp h
    cases operator
    all_goals
      obtain ⟨position, -, h⟩ := Option.bind_eq_some_iff.mp h
      obtain ⟨slot, -, rfl⟩ := Option.map_eq_some_iff.mp h
      exact ⟨{ hown.wellFormed with }, { hown.accepted with }⟩
  | computed predicate =>
    obtain ⟨text, -, h⟩ := Option.bind_eq_some_iff.mp h
    obtain ⟨sense, -, rfl⟩ := Option.map_eq_some_iff.mp h
    refine ⟨{ hown.wellFormed with computed := ?_ }, { hown.accepted with }⟩
    exact List.forall_mem_append.mpr ⟨hown.wellFormed.computed, List.forall_mem_singleton.mpr hof⟩
  | _ => cases h

end Roles

theorem wellFormed_of_all {schema : Schema} : ∀ {node : FilterNode}, node.All (Conditions.Guaranteed schema) →
    node.WellFormed schema := by
  intro node h
  induction h with
  | node own andChildren orChildren hown _ _ hands hors => exact .node own _ _ hown.wellFormed hands hors

end Ceres.Database
