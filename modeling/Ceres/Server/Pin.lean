/-
  File:      Ceres/Server/Pin.lean
  Subject:   PINNING THE ADDRESSES OF WIDGETS (`ceres/__internal__/workspace_redaction.py`: `_pin`, `_pin_widget`,
             `pin_widget_addresses`), and what it does to the values that the console reads.

  What is done to one text is a parameter of the walk. A widget is a dict, so an assignment changes the value
  under a key and leaves the key in its place.

  * `pinWidgetAddresses` -- the walk, for a function on texts;
  * `marked` -- the component references of a widget, and which of them are pinned;
  * **`references_pinned`** -- the references of the result, one for one;
  * `pinWidgetAddresses_congr`, `pinWidgetAddresses_idempotent` -- two functions that agree on what is pinned,
    and one that changes nothing the second time.
-/
import Ceres.Server.Merge

namespace Ceres.Server.Pin

open Ceres.Library
open Ceres.Data
open Ceres.Address
open Ceres.Server.Redaction
open Ceres.Server.Merge (slots slotsItems slotsFields widgetSlots keys slots_other)

set_option linter.unusedSectionVars false

/-! ## 1. One widget -/

/-- `object[key] = change(object[key])`, if the key is there. -/
def modify (key : String) (change : Json → Json) : Object → Object
  | [] => []
  | entry :: object => if entry.1 = key then (key, change entry.2) :: object else entry :: modify key change object

/-- The text behind the first `::`. -/
def afterColons : Text → Option Text
  | ':' :: ':' :: rest => some rest
  | _ :: text => afterColons text
  | [] => none

section Widget

variable (pin : Text → Text)

def pinValue : Json → Json
  | .string value => .string (pin value)
  | value => value

/-- A dict with an address, a filter or an entry of a list. -/
def pinEntry : Json → Json
  | .object entry => .object (modify "address" (pinValue pin) entry)
  | value => value

def pinEntries : Json → Json
  | .array entries => .array (entries.map (pinEntry pin))
  | value => value

def pinQuery : Json → Json
  | .string query => .string (((afterColons query).map fun rest =>
      pin (beforeColons query) ++ ':' :: ':' :: rest).getD query)
  | value => value

/-- What the value of a field holds. -/
inductive Kind where
  | value
  | query
  | entry
  | entries
  deriving DecidableEq

def Kind.change : Kind → Json → Json
  | value => pinValue pin
  | query => pinQuery pin
  | entry => pinEntry pin
  | entries => pinEntries pin

/-- Fields changed one after the other. -/
def assign (fields : List (String × Kind)) (widget : Object) : Object :=
  fields.foldl (fun widget field => modify field.1 (field.2.change pin) widget) widget

end Widget

/-- The fields that are pinned, in the order of the source. -/
def pinnedFields : List (String × Kind) :=
  addressKeys.map (·, .value) ++
    [("query", .query), ("filter", .entry), ("buttons", .entries), ("particles", .entries)]

section Walk

variable (pin : Text → Text)

/-- `_pin_widget` -/
def pinWidget (widget : Object) : Object := assign pin pinnedFields widget

/-! ## 2. The walk -/

mutual

def update (place : Place) : Json → Json
  | .null => .null
  | .boolean b => .boolean b
  | .integer n => .integer n
  | .float bits => .float bits
  | .string s => .string s
  | .array items => .array (updateItems place.item items)
  | .object fields =>
    let walked := updateFields place fields
    .object (if place = .widget then pinWidget pin walked else walked)

def updateItems (place : Place) : List Json → List Json
  | [] => []
  | item :: items => update place item :: updateItems place items

def updateFields (place : Place) : List (String × Json) → List (String × Json)
  | [] => []
  | (key, value) :: fields => (key, update (place.field key) value) :: updateFields place fields

end

def pinWidgetAddresses (data : Object) : Object := updateFields pin .page data

end Walk

/-- `_pin` -/
def serverPin (scope value : Text) : Text :=
  if value = [] then value
  else ((validated REGEX value).bind fun selector => AddressSelector.asAbsolute selector (some scope)).getD value

/-! ## 3. The references of a widget -/

/-- Whether the address of a query is pinned. -/
def queryPinned (widget : Object) : Bool :=
  match widget.get "query" with
  | some (.string query) => (afterColons query).isSome
  | _ => false

/-- The component references of a widget, each with whether it is pinned. -/
def marked (widget : Object) : List (Json × Bool) :=
  (addressKeys.filterMap widget.get ++ entryAddresses widget "buttons").map (·, true) ++
    (queryAddress widget).map (·, queryPinned widget) ++
    (filterAddress widget ++ entryAddresses widget "particles").map (·, true) ++
    (barAddresses widget ++ filesComponent widget).map (·, false)

theorem consoleValues_eq_marked (widget : Object) : consoleValues widget = (marked widget).map Prod.fst := by
  simp only [consoleValues, rawValues, marked, List.map_append, List.map_map, Function.comp_def, List.map_id',
    List.append_assoc]

/-- The references of a payload. -/
def references (data : Object) : List Json := (widgetSlots data).flatMap consoleValues

def markedReferences (data : Object) : List (Json × Bool) := (widgetSlots data).flatMap marked

/-- What becomes of a reference. -/
def repin (pin : Text → Text) (reference : Json × Bool) : Json :=
  if reference.2 then pinValue pin reference.1 else reference.1

/-! ## 4. What is read after a widget is pinned -/

theorem get_modify (key : String) (change : Json → Json) (other : String) : ∀ object : Object,
    (modify key change object).get other =
      if other = key then (object.get other).map change else object.get other
  | [] => by simp [modify]
  | entry :: object => by
      rw [modify]
      by_cases hentry : entry.1 = key
      · rw [if_pos hentry, Object.get_cons, Object.get_cons, hentry]
        by_cases hother : other = key
        · rw [if_pos hother.symm, if_pos hother, if_pos hother.symm]
          rfl
        · rw [if_neg (Ne.symm hother), if_neg hother, if_neg (Ne.symm hother)]
      · rw [if_neg hentry, Object.get_cons, Object.get_cons, get_modify key change other object]
        by_cases hother : other = key
        · rw [if_pos hother, if_neg (fun h => hentry (h.trans hother)), if_pos hother,
            if_neg (fun h => hentry (h.trans hother))]
        · rw [if_neg hother, if_neg hother]

theorem modify_congr {key : String} {change other : Json → Json} : ∀ {object : Object},
    (∀ value, object.get key = some value → change value = other value) →
      modify key change object = modify key other object
  | [], _ => rfl
  | entry :: object, h => by
      rw [modify, modify]
      by_cases hentry : entry.1 = key
      · rw [if_pos hentry, if_pos hentry, h entry.2 (by rw [Object.get_cons, if_pos hentry])]
      · rw [if_neg hentry, if_neg hentry, modify_congr fun value hvalue =>
          h value (by rw [Object.get_cons, if_neg hentry]; exact hvalue)]

theorem filter_modify {key other : String} (h : other ≠ key) (change : Json → Json) : ∀ object : Object,
    (modify key change object).filter (fun entry => entry.1 = other) =
      object.filter fun entry => entry.1 = other
  | [] => rfl
  | entry :: object => by
      rw [modify]
      by_cases hentry : entry.1 = key
      · have hne : ¬ entry.1 = other := fun heq => h (heq.symm.trans hentry)
        rw [if_pos hentry, List.filter_cons_of_neg (by simpa using Ne.symm h),
          List.filter_cons_of_neg (by simpa using hne)]
      · rw [if_neg hentry, List.filter_cons, List.filter_cons, filter_modify h change object]

theorem modify_modify (key : String) (change other : Json → Json) : ∀ object : Object,
    modify key change (modify key other object) = modify key (fun value => change (other value)) object
  | [] => rfl
  | entry :: object => by
      rw [modify, modify]
      by_cases hentry : entry.1 = key
      · rw [if_pos hentry, if_pos hentry, modify, if_pos rfl]
      · rw [if_neg hentry, if_neg hentry, modify, if_neg hentry, modify_modify key change other object]

theorem modify_comm {key key' : String} (h : key ≠ key') (change change' : Json → Json) : ∀ object : Object,
    modify key change (modify key' change' object) = modify key' change' (modify key change object)
  | [] => rfl
  | entry :: object => by
      by_cases hentry : entry.1 = key
      · have hne : entry.1 ≠ key' := fun heq => h (hentry.symm.trans heq)
        simp only [modify, if_pos hentry, if_neg hne, if_neg h]
      · by_cases hentry' : entry.1 = key'
        · simp only [modify, if_neg hentry, if_pos hentry', if_neg (Ne.symm h)]
        · simp only [modify, if_neg hentry, if_neg hentry', modify_comm h change change' object]

section Assign

variable {pin other : Text → Text} {fields : List (String × Kind)}

theorem assign_cons (field : String × Kind) (widget : Object) :
    assign pin (field :: fields) widget = assign pin fields (modify field.1 (field.2.change pin) widget) := rfl

theorem get_assign_of_not_mem {key : String} (h : key ∉ fields.map Prod.fst) (widget : Object) :
    (assign pin fields widget).get key = widget.get key := by
  induction fields generalizing widget with
  | nil => rfl
  | cons field fields ih =>
    rw [List.map_cons, List.mem_cons, not_or] at h
    rw [assign_cons, ih h.2, get_modify, if_neg h.1]

/-- **The field that is read is pinned.** -/
theorem get_assign_of_mem {key : String} {kind : Kind} (hnodup : (fields.map Prod.fst).Nodup)
    (h : (key, kind) ∈ fields) (widget : Object) :
    (assign pin fields widget).get key = (widget.get key).map (kind.change pin) := by
  induction fields generalizing widget with
  | nil => cases h
  | cons field fields ih =>
    rw [List.map_cons, List.nodup_cons] at hnodup
    rw [assign_cons]
    rcases List.mem_cons.mp h with rfl | h
    · rw [get_assign_of_not_mem hnodup.1, get_modify, if_pos rfl]
    · have hne : key ≠ field.1 := by
        rintro rfl
        exact hnodup.1 (List.mem_map.mpr ⟨_, h, rfl⟩)
      rw [ih hnodup.2 h, get_modify, if_neg hne]

theorem filter_assign {key : String} (h : key ∉ fields.map Prod.fst) (widget : Object) :
    (assign pin fields widget).filter (fun entry => entry.1 = key) = widget.filter fun entry => entry.1 = key := by
  induction fields generalizing widget with
  | nil => rfl
  | cons field fields ih =>
    rw [List.map_cons, List.mem_cons, not_or] at h
    rw [assign_cons, ih h.2, filter_modify h.1]

theorem assign_congr (hnodup : (fields.map Prod.fst).Nodup) (widget : Object)
    (h : ∀ field ∈ fields, ∀ value, widget.get field.1 = some value → field.2.change pin value = field.2.change other value) :
    assign pin fields widget = assign other fields widget := by
  induction fields generalizing widget with
  | nil => rfl
  | cons field fields ih =>
    rw [List.map_cons, List.nodup_cons] at hnodup
    rw [List.forall_mem_cons] at h
    rw [assign_cons, assign_cons, modify_congr h.1]
    refine ih hnodup.2 _ fun next hnext value hvalue => h.2 next hnext value ?_
    have hne : next.1 ≠ field.1 := fun heq => hnodup.1 (heq ▸ List.mem_map.mpr ⟨next, hnext, rfl⟩)
    rwa [get_modify, if_neg hne] at hvalue

theorem assign_modify {key : String} (h : key ∉ fields.map Prod.fst) (change : Json → Json) (widget : Object) :
    assign pin fields (modify key change widget) = modify key change (assign pin fields widget) := by
  induction fields generalizing widget with
  | nil => rfl
  | cons field fields ih =>
    rw [List.map_cons, List.mem_cons, not_or] at h
    rw [assign_cons, assign_cons, modify_comm (Ne.symm h.1), ih h.2]

theorem assign_idempotent (hkind : ∀ (kind : Kind) (value : Json), kind.change pin (kind.change pin value) = kind.change pin value)
    (hnodup : (fields.map Prod.fst).Nodup) (widget : Object) :
    assign pin fields (assign pin fields widget) = assign pin fields widget := by
  induction fields generalizing widget with
  | nil => rfl
  | cons field fields ih =>
    rw [List.map_cons, List.nodup_cons] at hnodup
    rw [assign_cons, assign_cons, ← assign_modify hnodup.1, modify_modify, ih hnodup.2]
    simp only [hkind]

end Assign


/-! ## 5. The references of a pinned widget -/

/-- What is pinned in front of a `::` is what stands in front of the first `::` after it. -/
def Addressed (pin : Text → Text) : Prop :=
  ∀ query rest, afterColons query = some rest →
    beforeColons (pin (beforeColons query) ++ ':' :: ':' :: rest) = pin (beforeColons query) ∧
      afterColons (pin (beforeColons query) ++ ':' :: ':' :: rest) = some rest

theorem nodup_pinnedFields : (pinnedFields.map Prod.fst).Nodup := by decide

theorem not_mem_pageKeys_of_pinned : ∀ key ∈ pinnedFields.map Prod.fst, key ∉ pageKeys := by decide

section Pinned

variable {pin : Text → Text}

theorem get_pinWidget {key : String} {kind : Kind} (h : (key, kind) ∈ pinnedFields) (widget : Object) :
    (pinWidget pin widget).get key = (widget.get key).map (kind.change pin) :=
  get_assign_of_mem nodup_pinnedFields h widget

theorem get_pinWidget_of_not_mem {key : String} (h : key ∉ pinnedFields.map Prod.fst) (widget : Object) :
    (pinWidget pin widget).get key = widget.get key :=
  get_assign_of_not_mem h widget

theorem addressKeys_pinWidget (widget : Object) :
    addressKeys.filterMap (pinWidget pin widget).get = (addressKeys.filterMap widget.get).map (pinValue pin) := by
  rw [List.map_filterMap]
  refine List.filterMap_congr fun key hkey => ?_
  exact get_pinWidget (List.mem_append_left _ (List.mem_map.mpr ⟨key, hkey, rfl⟩)) widget

theorem get_pinEntry (entry : Object) :
    (modify "address" (pinValue pin) entry).get "address" = (entry.get "address").map (pinValue pin) := by
  rw [get_modify, if_pos rfl]

theorem entryAddresses_pinWidget {key : String} (h : (key, Kind.entries) ∈ pinnedFields) (widget : Object) :
    entryAddresses (pinWidget pin widget) key = (entryAddresses widget key).map (pinValue pin) := by
  unfold entryAddresses
  rw [get_pinWidget h]
  cases hvalue : widget.get key with
  | none => rfl
  | some value =>
    cases value with
    | array entries =>
      simp only [Option.map_some, Kind.change, pinEntries]
      rw [List.filterMap_map, List.map_filterMap]
      refine List.filterMap_congr fun entry _ => ?_
      cases entry with
      | object fields => exact get_pinEntry fields
      | _ => rfl
    | _ => rfl

theorem filterAddress_pinWidget (widget : Object) :
    filterAddress (pinWidget pin widget) = (filterAddress widget).map (pinValue pin) := by
  unfold filterAddress
  rw [get_pinWidget (by decide : ("filter", Kind.entry) ∈ pinnedFields)]
  cases hvalue : widget.get "filter" with
  | none => rfl
  | some value =>
    cases value with
    | object fields =>
      simp only [Option.map_some, Kind.change, pinEntry]
      rw [get_pinEntry]
      cases Object.get fields "address" <;> rfl
    | _ => rfl

theorem queryAddress_pinWidget (hpin : Addressed pin) (widget : Object) : queryAddress (pinWidget pin widget) =
      ((queryAddress widget).map (·, queryPinned widget)).map (repin pin) := by
  unfold queryAddress queryPinned
  rw [get_pinWidget (by decide : ("query", Kind.query) ∈ pinnedFields)]
  cases hvalue : widget.get "query" with
  | none => rfl
  | some value =>
    cases value with
    | string query =>
      simp only [Option.map_some, Kind.change, pinQuery, List.map_cons, List.map_nil]
      cases hrest : afterColons query with
      | none => rfl
      | some rest =>
        rw [Option.map_some, Option.getD_some, (hpin query rest hrest).1]
        rfl
    | _ => rfl

theorem widgetType_pinWidget (widget : Object) : widgetType (pinWidget pin widget) = widgetType widget := by
  unfold widgetType
  rw [get_pinWidget_of_not_mem (by decide)]

theorem barAddresses_pinWidget (widget : Object) : barAddresses (pinWidget pin widget) = barAddresses widget := by
  unfold barAddresses
  rw [widgetType_pinWidget, get_pinWidget (by decide : ("query", Kind.query) ∈ pinnedFields)]
  by_cases htype : widgetType widget ∈ recordTypes
  · rw [if_pos htype, if_pos htype, Option.map_map]
    cases hvalue : widget.get "query" with
    | none => rfl
    | some value => cases value <;> rfl
  · rw [if_neg htype, if_neg htype]

theorem filesComponent_pinWidget (widget : Object) :
    filesComponent (pinWidget pin widget) = filesComponent widget := by
  unfold filesComponent
  rw [widgetType_pinWidget, get_pinWidget_of_not_mem (by decide)]

/-- **What is pinned changes, and nothing else.** -/
theorem consoleValues_pinWidget (hpin : Addressed pin) (widget : Object) :
    consoleValues (pinWidget pin widget) = (marked widget).map (repin pin) := by
  have hpinned : ∀ values : List Json, (values.map (·, true)).map (repin pin) = values.map (pinValue pin) := by
    intro values
    rw [List.map_map]
    rfl
  have hleft : ∀ values : List Json, (values.map (·, false)).map (repin pin) = values := by
    intro values
    rw [List.map_map]
    exact List.map_id values
  unfold consoleValues rawValues marked
  rw [addressKeys_pinWidget, entryAddresses_pinWidget (by decide), queryAddress_pinWidget hpin,
    filterAddress_pinWidget, entryAddresses_pinWidget (by decide), barAddresses_pinWidget,
    filesComponent_pinWidget]
  simp only [List.map_append, hpinned, hleft, List.append_assoc]

theorem marked_congr {widget other : Object} (h : ∀ key, key ∉ pageKeys → Object.get other key = Object.get widget key) :
    marked other = marked widget := by
  have haddress : addressKeys.filterMap (Object.get other) = addressKeys.filterMap (Object.get widget) :=
    List.filterMap_congr fun key hkey => h key ((by decide : ∀ key ∈ addressKeys, key ∉ pageKeys) key hkey)
  unfold marked entryAddresses queryAddress queryPinned filterAddress barAddresses filesComponent widgetType
  rw [haddress, h "buttons" (by decide), h "query" (by decide), h "filter" (by decide), h "particles" (by decide),
    h "type" (by decide), h "component" (by decide)]

end Pinned

/-! ## 6. The references of the result -/

section Update

variable {pin other : Text → Text}

mutual

theorem update_other : ∀ json, update pin .other json = json
  | .null => rfl
  | .boolean _ => rfl
  | .integer _ => rfl
  | .float _ => rfl
  | .string _ => rfl
  | .array items => by
      rw [update, Place.item_other, updateItems_other items]
  | .object fields => by
      rw [update, if_neg (by decide), updateFields_other fields]

theorem updateItems_other : ∀ items, updateItems pin .other items = items
  | [] => rfl
  | item :: items => by
      rw [updateItems, update_other item, updateItems_other items]

theorem updateFields_other : ∀ fields, updateFields pin .other fields = fields
  | [] => rfl
  | (key, value) :: fields => by
      rw [updateFields, Place.field_other, update_other value, updateFields_other fields]

end

theorem updateFields_eq_map (place : Place) : ∀ fields : Object,
    updateFields pin place fields = fields.map fun entry => (entry.1, update pin (place.field entry.1) entry.2)
  | [] => rfl
  | (key, value) :: fields => by
      rw [updateFields, List.map_cons, updateFields_eq_map place fields]

theorem get_updateFields_of_not_page {key : String} (hkey : key ∉ pageKeys) : ∀ fields : Object,
    Object.get (updateFields pin .widget fields) key = Object.get fields key
  | [] => rfl
  | (name, value) :: fields => by
      rw [updateFields, Object.get_cons, Object.get_cons, get_updateFields_of_not_page hkey fields]
      by_cases hname : name = key
      · subst hname
        rw [if_pos rfl, if_pos rfl, Place.field_widget hkey, update_other]
      · rw [if_neg hname, if_neg hname]

theorem slots_object (place : Place) (fields : Object) :
    slots place (.object fields) = (if place = .widget then [fields] else []) ++
      (keys place).flatMap fun key => (fields.filter fun entry => entry.1 = key).flatMap fun entry =>
        slots (place.field entry.1) entry.2 := by
  have hbelow : ∀ fields : Object, slotsFields place fields =
      fields.map fun entry => (entry.1, slots (place.field entry.1) entry.2) := by
    intro fields
    induction fields with
    | nil => rfl
    | cons entry fields ih => rw [slotsFields, ih, List.map_cons]
  rw [slots, hbelow]
  congr 2
  funext key
  rw [List.filter_map, List.flatMap_map]
  rfl

/-- A widget of the result. -/
def pinned (pin : Text → Text) (widget : Object) : Object := pinWidget pin (updateFields pin .widget widget)

theorem slots_fields_updated {place : Place} {fields : Object}
    (h : ∀ entry ∈ fields, slots (place.field entry.1) (update pin (place.field entry.1) entry.2) =
      (slots (place.field entry.1) entry.2).map (pinned pin)) (key : String) :
    ((updateFields pin place fields).filter fun entry => entry.1 = key).flatMap
        (fun entry => slots (place.field entry.1) entry.2) =
      ((fields.filter fun entry => entry.1 = key).flatMap fun entry =>
        slots (place.field entry.1) entry.2).map (pinned pin) := by
  rw [updateFields_eq_map, List.filter_map, List.flatMap_map, List.map_flatMap]
  exact List.flatMap_congr fun entry hentry => h entry (List.mem_filter.mp hentry).1

mutual

/-- **The widgets of the result**, one for one. -/
theorem slots_update : ∀ (place : Place) (json : Json),
    slots place (update pin place json) = (slots place json).map (pinned pin)
  | _, .null => rfl
  | _, .boolean _ => rfl
  | _, .integer _ => rfl
  | _, .float _ => rfl
  | _, .string _ => rfl
  | place, .array items => by
      rw [update, slots, slots, slotsItems_update place.item items]
  | place, .object fields => by
      have hfields := slotsFields_update place fields
      rw [update, slots_object, slots_object, List.map_append, List.map_flatMap]
      by_cases hplace : place = .widget
      · subst hplace
        rw [if_pos rfl, if_pos rfl, if_pos rfl, List.map_singleton]
        congr 1
        refine List.flatMap_congr fun key hkey => ?_
        have hpage : key ∉ pinnedFields.map Prod.fst := fun hmem => not_mem_pageKeys_of_pinned key hmem hkey
        rw [pinWidget, filter_assign hpage]
        exact slots_fields_updated hfields key
      · rw [if_neg hplace, if_neg hplace, if_neg hplace, List.map_nil]
        congr 1
        exact List.flatMap_congr fun key _ => slots_fields_updated hfields key

theorem slotsItems_update : ∀ (place : Place) (items : List Json),
    slotsItems place (updateItems pin place items) = (slotsItems place items).map (pinned pin)
  | _, [] => rfl
  | place, item :: items => by
      rw [updateItems, slotsItems, slotsItems, slots_update place item, slotsItems_update place items,
        List.map_append]

theorem slotsFields_update : ∀ (place : Place) (fields : List (String × Json)), ∀ entry ∈ fields,
    slots (place.field entry.1) (update pin (place.field entry.1) entry.2) =
      (slots (place.field entry.1) entry.2).map (pinned pin)
  | _, [] => nofun
  | place, (key, value) :: fields => by
      rw [List.forall_mem_cons]
      exact ⟨slots_update (place.field key) value, slotsFields_update place fields⟩

end

theorem widgetSlots_pinned (data : Object) :
    widgetSlots (pinWidgetAddresses pin data) = (widgetSlots data).map (pinned pin) := by
  have hupdated := @slots_update pin .page (.object data)
  rw [update, if_neg (by decide)] at hupdated
  exact hupdated

theorem references_eq (data : Object) : references data = (markedReferences data).map Prod.fst := by
  rw [references, markedReferences, List.map_flatMap]
  exact List.flatMap_congr fun widget _ => consoleValues_eq_marked widget

/-- **The references of the result**, one for one with those of the payload. -/
theorem references_pinned (hpin : Addressed pin) (data : Object) :
    references (pinWidgetAddresses pin data) = (markedReferences data).map (repin pin) := by
  rw [references, widgetSlots_pinned, List.flatMap_map, markedReferences, List.map_flatMap]
  refine List.flatMap_congr fun widget _ => ?_
  rw [pinned, consoleValues_pinWidget hpin, marked_congr fun key hkey => get_updateFields_of_not_page hkey widget]

end Update

/-! ## 7. Two functions, and one function twice -/

section Agreement

variable {pin other : Text → Text}

/-- The functions agree on a reference that is pinned. -/
def AgreeOn (pin other : Text → Text) (reference : Json × Bool) : Prop :=
  reference.2 = true → pinValue pin reference.1 = pinValue other reference.1

theorem pinEntry_congr {value : Json}
    (h : ∀ fields address, value = .object fields → Object.get fields "address" = some address →
      pinValue pin address = pinValue other address) : pinEntry pin value = pinEntry other value := by
  cases value with
  | object fields => exact congrArg Json.object (modify_congr fun address haddress => h fields address rfl haddress)
  | _ => rfl

theorem change_congr {widget : Object} (h : ∀ reference ∈ marked widget, AgreeOn pin other reference) :
    ∀ field ∈ pinnedFields, ∀ value, widget.get field.1 = some value →
      field.2.change pin value = field.2.change other value := by
  unfold marked at h
  simp only [List.forall_mem_append, List.forall_mem_map] at h
  obtain ⟨⟨⟨⟨haddress, hbuttons⟩, hquery⟩, hfilter, hparticles⟩, -⟩ := h
  have hentries : ∀ key, (∀ address ∈ entryAddresses widget key, AgreeOn pin other (address, true)) →
      ∀ value, widget.get key = some value → pinEntries pin value = pinEntries other value := by
    intro key hkey value hvalue
    cases value with
    | array entries =>
      refine congrArg Json.array (List.map_congr_left fun entry hentry => pinEntry_congr ?_)
      rintro fields address rfl hget
      refine hkey address ?_ rfl
      unfold entryAddresses
      rw [hvalue]
      exact List.mem_filterMap.mpr ⟨.object fields, hentry, hget⟩
    | _ => rfl
  intro field hfield value hvalue
  rcases List.mem_append.mp hfield with hmem | hmem
  · obtain ⟨key, hkey, rfl⟩ := List.mem_map.mp hmem
    exact haddress value (List.mem_filterMap.mpr ⟨key, hkey, hvalue⟩) rfl
  · simp only [List.mem_cons, List.not_mem_nil, or_false] at hmem
    rcases hmem with rfl | rfl | rfl | rfl
    · cases value with
      | string query =>
        unfold queryAddress queryPinned at hquery
        rw [hvalue] at hquery
        have hagree : (afterColons query).isSome = true →
            pin (beforeColons query) = other (beforeColons query) :=
          fun hsome => Json.string.inj (hquery _ List.mem_cons_self hsome)
        refine congrArg Json.string ?_
        cases hrest : afterColons query with
        | none => rfl
        | some rest =>
          have hsame := hagree (by rw [hrest]; rfl)
          rw [Option.map_some, Option.map_some, hsame]
      | _ => rfl
    · refine pinEntry_congr ?_
      rintro fields address rfl hget
      refine hfilter address ?_ rfl
      unfold filterAddress
      rw [hvalue, Option.mem_toList]
      exact hget
    · exact hentries "buttons" hbuttons value hvalue
    · exact hentries "particles" hparticles value hvalue

mutual

/-- **Functions that agree on what is pinned** make the same of a payload. -/
theorem update_congr : ∀ (place : Place) (json : Json),
    (∀ widget ∈ slots place json, ∀ reference ∈ marked widget, AgreeOn pin other reference) →
      update pin place json = update other place json
  | _, .null, _ => rfl
  | _, .boolean _, _ => rfl
  | _, .integer _, _ => rfl
  | _, .float _, _ => rfl
  | _, .string _, _ => rfl
  | place, .array items, h => by
      rw [update, update, updateItems_congr place.item items h]
  | place, .object fields, h => by
      have hfields : updateFields pin place fields = updateFields other place fields :=
        updateFields_congr place fields fun entry hentry widget hwidget =>
          h widget (Merge.mem_slots_object.mpr (.inr ⟨entry, hentry, hwidget⟩))
      rw [update, update, hfields]
      by_cases hplace : place = .widget
      · subst hplace
        have hmarked := h fields (Merge.mem_slots_object.mpr (.inl ⟨rfl, rfl⟩))
        rw [← marked_congr fun key hkey => @get_updateFields_of_not_page other key hkey fields] at hmarked
        rw [if_pos rfl, if_pos rfl, pinWidget, pinWidget,
          assign_congr nodup_pinnedFields _ (change_congr hmarked)]
      · rw [if_neg hplace, if_neg hplace]

theorem updateItems_congr : ∀ (place : Place) (items : List Json),
    (∀ widget ∈ slotsItems place items, ∀ reference ∈ marked widget, AgreeOn pin other reference) →
      updateItems pin place items = updateItems other place items
  | _, [], _ => rfl
  | place, item :: items, h => by
      rw [slotsItems, List.forall_mem_append] at h
      rw [updateItems, updateItems, update_congr place item h.1, updateItems_congr place items h.2]

theorem updateFields_congr : ∀ (place : Place) (fields : List (String × Json)),
    (∀ entry ∈ fields, ∀ widget ∈ slots (place.field entry.1) entry.2, ∀ reference ∈ marked widget,
      AgreeOn pin other reference) → updateFields pin place fields = updateFields other place fields
  | _, [], _ => rfl
  | place, (key, value) :: fields, h => by
      rw [List.forall_mem_cons] at h
      rw [updateFields, updateFields, update_congr (place.field key) value h.1, updateFields_congr place fields h.2]

end

theorem mem_markedReferences {data : Object} {reference : Json × Bool} :
    reference ∈ markedReferences data ↔ ∃ widget ∈ widgetSlots data, reference ∈ marked widget :=
  List.mem_flatMap

/-- **Two functions make the same of a payload exactly if they agree on every reference that is pinned.** -/
theorem pinWidgetAddresses_eq_iff (hpin : Addressed pin) (hother : Addressed other) (data : Object) :
    pinWidgetAddresses pin data = pinWidgetAddresses other data ↔
      ∀ reference ∈ markedReferences data, AgreeOn pin other reference := by
  constructor
  · intro h reference hmem hpinned
    have hreferences := congrArg references h
    rw [references_pinned hpin, references_pinned hother] at hreferences
    have hsame := List.map_inj_left.mp hreferences reference hmem
    unfold repin at hsame
    rwa [if_pos hpinned, if_pos hpinned] at hsame
  · intro h
    refine updateFields_congr .page data fun entry hentry widget hwidget reference hreference => ?_
    exact h reference (mem_markedReferences.mpr
      ⟨widget, Merge.widgetSlots_eq.mpr ⟨entry, hentry, hwidget⟩, hreference⟩)

variable (hpin : Addressed pin) (htwice : ∀ text, pin (pin text) = pin text)

include htwice

theorem pinValue_twice (value : Json) : pinValue pin (pinValue pin value) = pinValue pin value := by
  cases value with
  | string text => exact congrArg Json.string (htwice text)
  | _ => rfl

theorem pinEntry_twice (value : Json) : pinEntry pin (pinEntry pin value) = pinEntry pin value := by
  cases value with
  | object fields =>
    refine congrArg Json.object ?_
    rw [modify_modify]
    simp only [pinValue_twice htwice]
  | _ => rfl

include hpin

theorem change_twice (kind : Kind) (value : Json) :
    kind.change pin (kind.change pin value) = kind.change pin value := by
  cases kind with
  | value => exact pinValue_twice htwice value
  | entry => exact pinEntry_twice htwice value
  | query =>
    cases value with
    | string query =>
      simp only [Kind.change, pinQuery]
      cases hrest : afterColons query with
      | none => rw [Option.map_none, Option.getD_none, hrest, Option.map_none, Option.getD_none]
      | some rest =>
        obtain ⟨hbefore, hafter⟩ := hpin query rest hrest
        rw [Option.map_some, Option.getD_some, hafter, hbefore, Option.map_some, Option.getD_some, htwice]
    | _ => rfl
  | entries =>
    cases value with
    | array entries =>
      refine congrArg Json.array ?_
      rw [List.map_map]
      exact List.map_congr_left fun entry _ => pinEntry_twice htwice entry
    | _ => rfl

omit hpin htwice in
theorem updateFields_modify {key : String} (hkey : key ∉ pageKeys) (change : Json → Json) : ∀ fields : Object,
    updateFields pin .widget (modify key change fields) = modify key change (updateFields pin .widget fields)
  | [] => rfl
  | (name, value) :: fields => by
      rw [modify, updateFields, modify]
      by_cases hname : name = key
      · rw [if_pos hname, if_pos hname, updateFields, hname, Place.field_widget hkey, update_other, update_other]
      · rw [if_neg hname, if_neg hname, updateFields, updateFields_modify hkey change fields]

omit hpin htwice in
theorem updateFields_assign {fields : List (String × Kind)} (h : ∀ key ∈ fields.map Prod.fst, key ∉ pageKeys)
    (widget : Object) :
    updateFields pin .widget (assign pin fields widget) = assign pin fields (updateFields pin .widget widget) := by
  induction fields generalizing widget with
  | nil => rfl
  | cons field fields ih =>
    rw [List.map_cons, List.forall_mem_cons] at h
    rw [assign_cons, assign_cons, ih h.2, updateFields_modify h.1]

mutual

theorem update_twice : ∀ (place : Place) (json : Json), update pin place (update pin place json) = update pin place json
  | _, .null => rfl
  | _, .boolean _ => rfl
  | _, .integer _ => rfl
  | _, .float _ => rfl
  | _, .string _ => rfl
  | place, .array items => by
      rw [update, update, updateItems_twice place.item items]
  | place, .object fields => by
      rw [update, update]
      by_cases hplace : place = .widget
      · subst hplace
        rw [if_pos rfl, if_pos rfl, pinWidget, pinWidget, updateFields_assign not_mem_pageKeys_of_pinned,
          updateFields_twice .widget fields, assign_idempotent (change_twice hpin htwice) nodup_pinnedFields]
      · rw [if_neg hplace, if_neg hplace, updateFields_twice place fields]

theorem updateItems_twice : ∀ (place : Place) (items : List Json),
    updateItems pin place (updateItems pin place items) = updateItems pin place items
  | _, [] => rfl
  | place, item :: items => by
      rw [updateItems, updateItems, update_twice place item, updateItems_twice place items]

theorem updateFields_twice : ∀ (place : Place) (fields : List (String × Json)),
    updateFields pin place (updateFields pin place fields) = updateFields pin place fields
  | _, [] => rfl
  | place, (key, value) :: fields => by
      rw [updateFields, updateFields, update_twice (place.field key) value, updateFields_twice place fields]

end

/-- **Pinning twice is pinning once**, if it is so on every text. -/
theorem pinWidgetAddresses_idempotent (data : Object) :
    pinWidgetAddresses pin (pinWidgetAddresses pin data) = pinWidgetAddresses pin data :=
  updateFields_twice hpin htwice .page data

end Agreement

end Ceres.Server.Pin
