/-
  File:      Ceres/Server/Merge.lean
  Subject:   WHAT SAVING A REDACTED WORKSPACE KEEPS (`ceres/__internal__/workspace_redaction.py`:
             `_iter_widget_slots`, `merge_redacted_widgets`).

  A save replaces every stub of the payload that comes in by the stored widget of its id. Ids are the keys of
  a dict, so `1` and `true` are one id, and a list raises. A stub that is replaced takes along what it holds
  on pages of its own, where the walk goes on and nothing it changes is part of the result.

  * `slots` -- the widgets of a payload, in the order the generator yields them;
  * `mergeRedactedWidgets` -- the payload that is saved, or the `TypeError`;
  * `Stands` -- what stands at a path of a payload, and under which widgets;
  * **`merge_restores`** -- what is redacted is restored, no stub stands for a stored widget, and a widget
    that is no stub stays where it was.
-/
import Ceres.Server.Redaction
import Ceres.Library.Dict

namespace Ceres.Server.Merge

open Ceres.Library
open Ceres.Data
open Ceres.Server.Redaction

set_option linter.unusedSectionVars false

/-! ## 1. Ids -/

/-- A value as the key of a dict. -/
inductive Key where
  | none
  | number (n : Int)
  | fraction (bits : UInt64)
  | text (s : Text)
  deriving DecidableEq

/-- The whole number that a float is. -/
def whole (bits : UInt64) : Option Int :=
  let exponent := bits.toNat / 2 ^ 52 % 2 ^ 11
  let mantissa := bits.toNat % 2 ^ 52 + if exponent = 0 then 0 else 2 ^ 52
  let places := 1075 - max exponent 1
  let sign : Int := if bits.toNat / 2 ^ 63 = 1 then -1 else 1
  if exponent = 2047 then none
  else if mantissa % 2 ^ places = 0 then some (sign * (mantissa * 2 ^ (exponent - 1075) / 2 ^ places : Nat))
  else none

/-- Numbers that are equal are one key, `true` and `1.0` among them. A list or a dict is no key. -/
def keyOf : Json → Option Key
  | .null => some .none
  | .boolean b => some (.number (if b then 1 else 0))
  | .integer n => some (.number n)
  | .float bits => some (((whole bits).map Key.number).getD (.fraction bits))
  | .string s => some (.text s)
  | .array _ => none
  | .object _ => none

example : keyOf (.float 0x3ff0000000000000) = keyOf (.boolean true) := by decide

def idKey (widget : Object) : Option Key := keyOf (field widget "id")

/-- A widget marked `restricted: true`. -/
def restricted (widget : Object) : Bool :=
  match widget.get "restricted" with
  | some (.boolean true) => true
  | _ => false

/-! ## 2. The widgets of a payload -/

/-- The fields that the generator goes into, in its order. -/
def keys : Place → List String
  | .row => ["widgets"]
  | .widget => pageKeys
  | .page => ["layout"]
  | _ => []

mutual

def slots (place : Place) : Json → List Object
  | .null => []
  | .boolean _ => []
  | .integer _ => []
  | .float _ => []
  | .string _ => []
  | .array items => slotsItems place.item items
  | .object fields =>
    let below := slotsFields place fields
    (if place = .widget then [fields] else []) ++
      (keys place).flatMap fun key => (below.filter fun entry => entry.1 = key).flatMap Prod.snd

def slotsItems (place : Place) : List Json → List Object
  | [] => []
  | item :: items => slots place item ++ slotsItems place items

def slotsFields (place : Place) : List (String × Json) → List (String × List Object)
  | [] => []
  | (key, value) :: fields => (key, slots (place.field key) value) :: slotsFields place fields

end

/-- `_iter_widget_slots` -/
def widgetSlots (data : Object) : List Object := slots .page (.object data)

/-! ## 3. The merge -/

/-- The stored widgets by their ids. A later widget takes the id over. -/
def storedById : List Object → Dict Key Object → Option (Dict Key Object)
  | [], byId => some byId
  | widget :: widgets, byId => (idKey widget).bind fun key =>
    storedById widgets (if key = .none then byId else byId.set key widget)

section Walk

variable (byId : Dict Key Object)

mutual

def merge (place : Place) : Json → Option Json
  | .null => some .null
  | .boolean b => some (.boolean b)
  | .integer n => some (.integer n)
  | .float bits => some (.float bits)
  | .string s => some (.string s)
  | .array items => (mergeItems place.item items).map Json.array
  | .object fields => (mergeFields place fields).bind fun walked =>
    if place = .widget ∧ restricted fields = true then
      (idKey fields).map fun key => .object ((byId.get key).getD walked)
    else some (.object walked)

def mergeItems (place : Place) : List Json → Option (List Json)
  | [] => some []
  | item :: items => (merge place item).bind fun merged =>
    (mergeItems place items).map fun rest => merged :: rest

def mergeFields (place : Place) : List (String × Json) → Option (List (String × Json))
  | [] => some []
  | (key, value) :: fields => (merge (place.field key) value).bind fun merged =>
    (mergeFields place fields).map fun rest => (key, merged) :: rest

end

end Walk

def mergeRedactedWidgets (stored incoming : Object) : Option Object :=
  (storedById (widgetSlots stored) []).bind fun byId => mergeFields byId .page incoming

/-! ## 4. What the stored ids give -/

/-- **Every widget carries an id of its own.** -/
structure Identified (widgets : List Object) : Prop where
  carried : ∀ widget ∈ widgets, ∃ key, idKey widget = some key ∧ key ≠ .none
  distinct : (widgets.map idKey).Nodup

theorem Identified.eq {widgets : List Object} (h : Identified widgets) {widget other : Object}
    (hwidget : widget ∈ widgets) (hother : other ∈ widgets) (hid : idKey widget = idKey other) : widget = other :=
  List.inj_on_of_nodup_map h.distinct hwidget hother hid

theorem storedById_cons (widget : Object) (widgets : List Object) (byId : Dict Key Object) {key : Key}
    (hid : idKey widget = some key) (hkey : key ≠ .none) :
    storedById (widget :: widgets) byId = storedById widgets (byId.set key widget) := by
  rw [storedById, hid, Option.bind_some, if_neg hkey]

theorem storedById_spec : ∀ {widgets : List Object}, Identified widgets → ∀ byId : Dict Key Object,
    ∃ result, storedById widgets byId = some result ∧
      (∀ widget ∈ widgets, ∀ key, idKey widget = some key → result.get key = some widget) ∧
      ∀ key, some key ∉ widgets.map idKey → result.get key = byId.get key
  | [], _, byId => by
      refine ⟨byId, rfl, ?_, fun key hkey => rfl⟩
      intro widget hmem
      cases hmem
  | widget :: widgets, h, byId => by
      obtain ⟨key, hid, hkey⟩ := h.carried widget List.mem_cons_self
      have hdistinct := h.distinct
      rw [List.map_cons, List.nodup_cons] at hdistinct
      have hrest : Identified widgets :=
        ⟨fun other hother => h.carried other (List.mem_cons_of_mem _ hother), hdistinct.2⟩
      obtain ⟨result, hresult, hfound, habsent⟩ := storedById_spec hrest (byId.set key widget)
      refine ⟨result, ?_, ?_, ?_⟩
      · rw [storedById_cons widget widgets byId hid hkey]
        exact hresult
      · intro other hother other_key hotherid
        rcases List.mem_cons.mp hother with rfl | hother
        · have hsame : other_key = key := Option.some.inj (hotherid.symm.trans hid)
          rw [hsame, habsent key (by rw [← hid]; exact hdistinct.1), Dict.get_set, if_pos rfl]
        · exact hfound other hother other_key hotherid
      · intro other_key hother
        rw [List.map_cons, List.mem_cons, not_or] at hother
        rw [habsent other_key hother.2, Dict.get_set, if_neg]
        intro hsame
        exact hother.1 (by rw [hid, hsame])

/-- The dict of the stored widgets. -/
structure Restores (widgets : List Object) (byId : Dict Key Object) : Prop where
  found : ∀ widget ∈ widgets, ∀ key, idKey widget = some key → byId.get key = some widget
  absent : ∀ key, some key ∉ widgets.map idKey → byId.get key = none

theorem exists_restores {widgets : List Object} (h : Identified widgets) :
    ∃ byId, storedById widgets [] = some byId ∧ Restores widgets byId := by
  obtain ⟨byId, hbyId, hfound, habsent⟩ := storedById_spec h []
  exact ⟨byId, hbyId, hfound, habsent⟩

theorem Restores.mem {widgets : List Object} {byId : Dict Key Object} (h : Restores widgets byId) {key : Key}
    {widget : Object} (hget : byId.get key = some widget) : widget ∈ widgets ∧ idKey widget = some key := by
  by_cases hmem : some key ∈ widgets.map idKey
  · obtain ⟨other, hother, hid⟩ := List.mem_map.mp hmem
    have hsame : other = widget := by
      have hfound := h.found other hother key hid
      rw [hget] at hfound
      exact (Option.some.inj hfound).symm
    rw [← hsame]
    exact ⟨hother, hid⟩
  · rw [h.absent key hmem] at hget
    cases hget

/-! ## 5. The widgets below -/

theorem mem_slotsItems {place : Place} {widget : Object} {items : List Json} :
    widget ∈ slotsItems place items ↔ ∃ item ∈ items, widget ∈ slots place item := by
  induction items with
  | nil => simp [slotsItems]
  | cons item items ih => rw [slotsItems, List.mem_append, ih, List.exists_mem_cons_iff]

theorem mem_slotsFields {place : Place} {entry : String × List Object} : ∀ {fields : Object},
    entry ∈ slotsFields place fields ↔
      ∃ source ∈ fields, entry = (source.1, slots (place.field source.1) source.2)
  | [] => by simp [slotsFields]
  | source :: fields => by
      rw [slotsFields, List.mem_cons, mem_slotsFields, List.exists_mem_cons_iff]

theorem field_eq_other {place : Place} {key : String} (h : key ∉ keys place) : place.field key = .other := by
  cases place
  case row => exact if_neg fun hkey => h (List.mem_singleton.mpr hkey)
  case widget => exact if_neg h
  case page => exact if_neg fun hkey => h (List.mem_singleton.mpr hkey)
  all_goals rfl

mutual

theorem slots_other : ∀ json, slots .other json = []
  | .null => rfl
  | .boolean _ => rfl
  | .integer _ => rfl
  | .float _ => rfl
  | .string _ => rfl
  | .array items => by
      rw [slots, Place.item_other, slotsItems_other items]
  | .object fields => by
      rw [slots, if_neg (by decide)]
      rfl

theorem slotsItems_other : ∀ items, slotsItems .other items = []
  | [] => rfl
  | item :: items => by
      rw [slotsItems, slots_other item, slotsItems_other items, List.append_nil]

end

/-- **The widgets of an object**: itself, if it is one, and those of its fields. -/
theorem mem_slots_object {place : Place} {fields widget : Object} : widget ∈ slots place (.object fields) ↔
      (place = .widget ∧ widget = fields) ∨ ∃ entry ∈ fields, widget ∈ slots (place.field entry.1) entry.2 := by
  rw [slots, List.mem_append]
  refine or_congr ?_ ?_
  · by_cases hplace : place = .widget
    · rw [if_pos hplace, List.mem_singleton, and_iff_right hplace]
    · rw [if_neg hplace]
      simp [hplace]
  · constructor
    · intro h
      obtain ⟨key, -, h⟩ := List.mem_flatMap.mp h
      obtain ⟨below, hbelow, hwidget⟩ := List.mem_flatMap.mp h
      obtain ⟨entry, hentry, rfl⟩ := mem_slotsFields.mp (List.mem_filter.mp hbelow).1
      exact ⟨entry, hentry, hwidget⟩
    · intro h
      obtain ⟨entry, hentry, hwidget⟩ := h
      have hkey : entry.1 ∈ keys place := by
        by_contra hkey
        rw [field_eq_other hkey, slots_other] at hwidget
        cases hwidget
      have hbelow : (entry.1, slots (place.field entry.1) entry.2) ∈
          (slotsFields place fields).filter fun below => below.1 = entry.1 :=
        List.mem_filter.mpr ⟨mem_slotsFields.mpr ⟨entry, hentry, rfl⟩, decide_eq_true rfl⟩
      exact List.mem_flatMap.mpr ⟨entry.1, hkey, List.mem_flatMap.mpr ⟨_, hbelow, hwidget⟩⟩

theorem mem_slots_array {place : Place} {items : List Json} {widget : Object} :
    widget ∈ slots place (.array items) ↔ ∃ item ∈ items, widget ∈ slots place.item item := by
  rw [slots, mem_slotsItems]

section Below

variable {widget inner : Object} (hinner : inner ∈ slots .widget (.object widget))

include hinner

mutual

theorem slots_subset : ∀ {place json}, widget ∈ slots place json → inner ∈ slots place json
  | _, .null, h => nomatch h
  | _, .boolean _, h => nomatch h
  | _, .integer _, h => nomatch h
  | _, .float _, h => nomatch h
  | _, .string _, h => nomatch h
  | place, .array items, h => slotsItems_subset h
  | place, .object fields, h => by
      rcases mem_slots_object.mp h with h | h
      · obtain ⟨rfl, rfl⟩ := h
        exact hinner
      · exact mem_slots_object.mpr (.inr (slotsFields_subset h))

theorem slotsItems_subset : ∀ {place items}, widget ∈ slotsItems place items → inner ∈ slotsItems place items
  | _, [], h => nomatch h
  | place, item :: items, h => by
      rw [slotsItems, List.mem_append] at h ⊢
      rcases h with h | h
      · exact .inl (slots_subset h)
      · exact .inr (slotsItems_subset h)

theorem slotsFields_subset : ∀ {place : Place} {fields : List (String × Json)},
    (∃ entry ∈ fields, widget ∈ slots (place.field entry.1) entry.2) →
      ∃ entry ∈ fields, inner ∈ slots (place.field entry.1) entry.2
  | _, [], h => by
      obtain ⟨entry, hentry, -⟩ := h
      cases hentry
  | place, (key, value) :: fields, h => by
      rw [List.exists_mem_cons_iff] at h ⊢
      rcases h with h | h
      · exact .inl (slots_subset h)
      · exact .inr (slotsFields_subset h)

end

end Below

/-! ## 6. What the merge keeps -/

section Kept

variable {byId : Dict Key Object}

variable {place : Place}

theorem merge_object {fields walked : Object} (h : mergeFields byId place fields = some walked) :
    merge byId place (.object fields) = if place = .widget ∧ restricted fields = true then
        (idKey fields).map fun key => .object ((byId.get key).getD walked) else some (.object walked) := by
  rw [merge, h, Option.bind_some]

theorem merge_object_eq {fields : Object} {merged : Json}
    (h : merge byId place (.object fields) = some merged) : ∃ others, merged = .object others := by
  rw [merge] at h
  obtain ⟨walked, -, h⟩ := Option.bind_eq_some_iff.mp h
  by_cases hrestricted : place = .widget ∧ restricted fields = true
  · rw [if_pos hrestricted] at h
    obtain ⟨key, -, rfl⟩ := Option.map_eq_some_iff.mp h
    exact ⟨_, rfl⟩
  · rw [if_neg hrestricted] at h
    cases h
    exact ⟨walked, rfl⟩

mutual

theorem merge_other : ∀ json, merge byId .other json = some json
  | .null => rfl
  | .boolean _ => rfl
  | .integer _ => rfl
  | .float _ => rfl
  | .string _ => rfl
  | .array items => by
      rw [merge, Place.item_other, mergeItems_other items]
      rfl
  | .object fields => by
      rw [merge_object (mergeFields_other fields), if_neg (by simp)]

theorem mergeItems_other : ∀ items, mergeItems byId .other items = some items
  | [] => rfl
  | item :: items => by
      rw [mergeItems, merge_other item, mergeItems_other items]
      rfl

theorem mergeFields_other : ∀ fields, mergeFields byId .other fields = some fields
  | [] => rfl
  | (key, value) :: fields => by
      rw [mergeFields, Place.field_other, merge_other value, mergeFields_other fields]
      rfl

end

theorem mergeFields_widget : ∀ {fields : Object}, (∀ key ∈ fields.map Prod.fst, key ∉ pageKeys) →
    mergeFields byId .widget fields = some fields
  | [], _ => rfl
  | (key, value) :: fields, h => by
      rw [List.map_cons, List.forall_mem_cons] at h
      rw [mergeFields, Place.field_widget h.1, merge_other value, mergeFields_widget h.2]
      rfl

variable {fields merged : Object}

theorem mergeFields_cons {key : String} {value : Json}
    (h : mergeFields byId place ((key, value) :: fields) = some merged) :
    ∃ json rest, merge byId (place.field key) value = some json ∧ mergeFields byId place fields = some rest ∧
      merged = (key, json) :: rest := by
  rw [mergeFields] at h
  obtain ⟨json, hjson, h⟩ := Option.bind_eq_some_iff.mp h
  obtain ⟨rest, hrest, rfl⟩ := Option.map_eq_some_iff.mp h
  exact ⟨json, rest, hjson, hrest, rfl⟩

theorem mergeItems_cons {item : Json} {items merged : List Json}
    (h : mergeItems byId place (item :: items) = some merged) :
    ∃ json rest, merge byId place item = some json ∧ mergeItems byId place items = some rest ∧
      merged = json :: rest := by
  rw [mergeItems] at h
  obtain ⟨json, hjson, h⟩ := Option.bind_eq_some_iff.mp h
  obtain ⟨rest, hrest, rfl⟩ := Option.map_eq_some_iff.mp h
  exact ⟨json, rest, hjson, hrest, rfl⟩

/-- **The fields of the result**: the keys stay, and each value is merged. -/
theorem get_mergeFields {key : String} : ∀ {fields merged : Object},
    mergeFields byId place fields = some merged → (∀ value, fields.get key = some value →
        ∃ json, merge byId (place.field key) value = some json ∧ merged.get key = some json) ∧
      (fields.get key = none → merged.get key = none)
  | [], merged, h => by
      rw [mergeFields] at h
      cases h
      exact ⟨nofun, fun _ => rfl⟩
  | (name, value) :: fields, merged, h => by
      obtain ⟨json, rest, hjson, hrest, rfl⟩ := mergeFields_cons h
      rw [Object.get_cons, Object.get_cons]
      by_cases hname : name = key
      · subst hname
        rw [if_pos rfl, if_pos rfl]
        refine ⟨?_, nofun⟩
        intro other hother
        cases hother
        exact ⟨json, hjson, rfl⟩
      · rw [if_neg hname, if_neg hname]
        exact get_mergeFields hrest

theorem get_mergeFields_other {key : String} (hkey : place.field key = .other)
    (h : mergeFields byId place fields = some merged) : merged.get key = fields.get key := by
  obtain ⟨hsome, hnone⟩ := @get_mergeFields byId place key fields merged h
  cases hvalue : fields.get key with
  | none => exact hnone hvalue
  | some value =>
    obtain ⟨json, hjson, hget⟩ := hsome value hvalue
    rw [hkey, merge_other] at hjson
    rw [hget, hjson]

theorem restricted_mergeFields (h : mergeFields byId .widget fields = some merged) :
    restricted merged = restricted fields := by
  unfold restricted
  rw [get_mergeFields_other (Place.field_widget (by decide)) h]

theorem idKey_mergeFields (h : mergeFields byId .widget fields = some merged) : idKey merged = idKey fields := by
  unfold idKey field
  rw [get_mergeFields_other (Place.field_widget (by decide)) h]

end Kept

/-! ## 7. What is restored -/

section Restore

variable {byId : Dict Key Object} {scope : Option Text} {canView : Text → Bool}

theorem merge_stub {widget : Object} {key : Key} (hid : idKey widget = some key)
    (hfound : byId.get key = some widget) :
    merge byId .widget (.object (stub widget)) = some (.object widget) := by
  have hwalked : mergeFields byId .widget (stub widget) = some (stub widget) :=
    mergeFields_widget (by simp only [stub, List.map_cons, List.map_nil]; decide)
  have hkey : idKey (stub widget) = some key := hid
  rw [merge_object hwalked, if_pos ⟨rfl, rfl⟩, hkey, Option.map_some, hfound, Option.getD_some]

def Holds (byId : Dict Key Object) (widgets : List Object) : Prop :=
  ∀ widget ∈ widgets, ∃ key, idKey widget = some key ∧ byId.get key = some widget

mutual

/-- **What is redacted is restored.** -/
theorem merge_redact : ∀ {place json}, Holds byId (slots place json) →
    merge byId place (redact scope canView place json) = some json
  | _, .null, _ => rfl
  | _, .boolean _, _ => rfl
  | _, .integer _, _ => rfl
  | _, .float _, _ => rfl
  | _, .string _, _ => rfl
  | place, .array items, h => by
      rw [slots] at h
      rw [redact, merge, mergeItems_redact h, Option.map_some]
  | place, .object fields, h => by
      rw [redact]
      by_cases hdenied : place = .widget ∧ denied scope canView fields = true
      · obtain ⟨rfl, -⟩ := id hdenied
        obtain ⟨key, hid, hfound⟩ := h fields (mem_slots_object.mpr (.inl ⟨rfl, rfl⟩))
        rw [if_pos hdenied, merge_stub hid hfound]
      · have hwalked := mergeFields_redact (fun entry hentry widget hwidget =>
          h widget (mem_slots_object.mpr (.inr ⟨entry, hentry, hwidget⟩)))
        rw [if_neg hdenied, merge_object hwalked]
        by_cases hrestricted : place = .widget ∧ restricted (redactFields scope canView place fields) = true
        · obtain ⟨rfl, -⟩ := id hrestricted
          obtain ⟨key, hid, hfound⟩ := h fields (mem_slots_object.mpr (.inl ⟨rfl, rfl⟩))
          have hkey : idKey (redactFields scope canView .widget fields) = some key := by
            rw [← idKey_mergeFields hwalked]
            exact hid
          rw [if_pos hrestricted, hkey, Option.map_some, hfound, Option.getD_some]
        · rw [if_neg hrestricted]

theorem mergeItems_redact : ∀ {place items}, Holds byId (slotsItems place items) →
    mergeItems byId place (redactItems scope canView place items) = some items
  | _, [], _ => rfl
  | place, item :: items, h => by
      rw [slotsItems] at h
      have hitem : Holds byId (slots place item) := fun widget hw => h widget (List.mem_append_left _ hw)
      have hitems : Holds byId (slotsItems place items) := fun widget hw => h widget (List.mem_append_right _ hw)
      rw [redactItems, mergeItems, merge_redact hitem, Option.bind_some, mergeItems_redact hitems,
        Option.map_some]

theorem mergeFields_redact : ∀ {place : Place} {fields : Object},
    (∀ entry ∈ fields, Holds byId (slots (place.field entry.1) entry.2)) →
    mergeFields byId place (redactFields scope canView place fields) = some fields
  | _, [], _ => rfl
  | place, (key, value) :: fields, h => by
      rw [List.forall_mem_cons] at h
      rw [redactFields, mergeFields, merge_redact h.1, Option.bind_some, mergeFields_redact h.2,
        Option.map_some]

end

end Restore

/-! ## 8. What the result holds -/

section Result

variable {byId : Dict Key Object} {stored : List Object}

/-- A stub of a stored widget that is no stub. -/
def Overwrites (stored : List Object) (widget : Object) : Prop :=
  restricted widget = true ∧
    ∃ original ∈ stored, restricted original = false ∧ idKey widget = idKey original

/-- No stored widget is such a stub, since there is none but itself with its id. -/
theorem not_overwrites_of_mem (h : Identified stored) {widget : Object} (hmem : widget ∈ stored) :
    ¬ Overwrites stored widget := by
  intro hover
  obtain ⟨hstub, original, horiginal, hplain, hid⟩ := hover
  have hsame : widget = original := h.eq hmem horiginal hid
  rw [hsame, hplain] at hstub
  cases hstub

variable (hrestores : Restores stored byId) (hidentified : Identified stored)
  (hclosed : ∀ widget ∈ stored, ∀ inner ∈ slots .widget (.object widget), inner ∈ stored)

include hrestores hidentified hclosed

mutual

/-- **No stub stands for a stored widget.** -/
theorem not_overwrites : ∀ {place json merged}, merge byId place json = some merged →
    ∀ widget ∈ slots place merged, ¬ Overwrites stored widget
  | _, .null, _, h => by cases h; exact nofun
  | _, .boolean _, _, h => by cases h; exact nofun
  | _, .integer _, _, h => by cases h; exact nofun
  | _, .float _, _, h => by cases h; exact nofun
  | _, .string _, _, h => by cases h; exact nofun
  | place, .array items, _, h => by
      rw [merge] at h
      obtain ⟨rest, hrest, rfl⟩ := Option.map_eq_some_iff.mp h
      intro widget hwidget
      obtain ⟨item, hitem, hwidget⟩ := mem_slots_array.mp hwidget
      exact notItems_overwrites hrest item hitem widget hwidget
  | place, .object fields, merged, h => by
      rw [merge] at h
      obtain ⟨walked, hwalked, h⟩ := Option.bind_eq_some_iff.mp h
      have hbelow := notFields_overwrites hwalked
      by_cases hrestricted : place = .widget ∧ restricted fields = true
      · obtain ⟨rfl, hstub⟩ := id hrestricted
        rw [if_pos hrestricted] at h
        obtain ⟨key, hkey, rfl⟩ := Option.map_eq_some_iff.mp h
        intro widget hwidget
        cases hfound : byId.get key with
        | some original =>
          rw [hfound, Option.getD_some] at hwidget
          exact not_overwrites_of_mem hidentified (hclosed original (hrestores.mem hfound).1 widget hwidget)
        | none =>
          rw [hfound, Option.getD_none] at hwidget
          rcases mem_slots_object.mp hwidget with ⟨-, rfl⟩ | ⟨entry, hentry, hwidget⟩
          · intro hover
            obtain ⟨-, original, horiginal, -, hid⟩ := hover
            rw [idKey_mergeFields hwalked, hkey] at hid
            rw [hrestores.found original horiginal key hid.symm] at hfound
            cases hfound
          · exact hbelow entry hentry widget hwidget
      · rw [if_neg hrestricted] at h
        cases h
        intro widget hwidget
        rcases mem_slots_object.mp hwidget with ⟨rfl, rfl⟩ | ⟨entry, hentry, hwidget⟩
        · intro hover
          rw [Overwrites, restricted_mergeFields hwalked] at hover
          exact hrestricted ⟨rfl, hover.1⟩
        · exact hbelow entry hentry widget hwidget

theorem notItems_overwrites : ∀ {place items merged}, mergeItems byId place items = some merged →
    ∀ item ∈ merged, ∀ widget ∈ slots place item, ¬ Overwrites stored widget
  | _, [], _, h => by cases h; exact nofun
  | place, item :: items, _, h => by
      obtain ⟨json, rest, hjson, hrest, rfl⟩ := mergeItems_cons h
      rw [List.forall_mem_cons]
      exact ⟨not_overwrites hjson, notItems_overwrites hrest⟩

theorem notFields_overwrites : ∀ {place : Place} {fields merged : Object},
    mergeFields byId place fields = some merged →
      ∀ entry ∈ merged, ∀ widget ∈ slots (place.field entry.1) entry.2, ¬ Overwrites stored widget
  | _, [], _, h => by cases h; exact nofun
  | place, (key, value) :: fields, _, h => by
      obtain ⟨json, rest, hjson, hrest, rfl⟩ := mergeFields_cons h
      rw [List.forall_mem_cons]
      exact ⟨not_overwrites hjson, notFields_overwrites hrest⟩

end

end Result

/-! ## 9. When there is a result -/

section Errors

variable {byId : Dict Key Object}

/-- The ids of the stubs are no lists and no dicts. -/
def Hashable (widgets : List Object) : Prop :=
  ∀ widget ∈ widgets, restricted widget = true → (idKey widget).isSome = true

theorem hashable_append {widgets others : List Object} :
    Hashable (widgets ++ others) ↔ Hashable widgets ∧ Hashable others :=
  List.forall_mem_append

mutual

/-- **The merge raises only at such an id.** -/
theorem isSome_merge : ∀ {place json}, Hashable (slots place json) → ∃ merged, merge byId place json = some merged
  | _, .null, _ => ⟨_, rfl⟩
  | _, .boolean _, _ => ⟨_, rfl⟩
  | _, .integer _, _ => ⟨_, rfl⟩
  | _, .float _, _ => ⟨_, rfl⟩
  | _, .string _, _ => ⟨_, rfl⟩
  | place, .array items, h => by
      rw [slots] at h
      obtain ⟨merged, hmerged⟩ := isSome_mergeItems h
      exact ⟨.array merged, by rw [merge, hmerged, Option.map_some]⟩
  | place, .object fields, h => by
      obtain ⟨walked, hwalked⟩ := isSome_mergeFields fun entry hentry widget hwidget =>
        h widget (mem_slots_object.mpr (.inr ⟨entry, hentry, hwidget⟩))
      rw [merge_object hwalked]
      by_cases hrestricted : place = .widget ∧ restricted fields = true
      · have hid := h fields (mem_slots_object.mpr (.inl ⟨hrestricted.1, rfl⟩)) hrestricted.2
        obtain ⟨key, hkey⟩ := Option.isSome_iff_exists.mp hid
        rw [if_pos hrestricted, hkey]
        exact ⟨_, rfl⟩
      · rw [if_neg hrestricted]
        exact ⟨_, rfl⟩

theorem isSome_mergeItems : ∀ {place items}, Hashable (slotsItems place items) →
    ∃ merged, mergeItems byId place items = some merged
  | _, [], _ => ⟨[], rfl⟩
  | place, item :: items, h => by
      rw [slotsItems, hashable_append] at h
      obtain ⟨merged, hmerged⟩ := isSome_merge h.1
      obtain ⟨rest, hrest⟩ := isSome_mergeItems h.2
      exact ⟨merged :: rest, by rw [mergeItems, hmerged, Option.bind_some, hrest, Option.map_some]⟩

theorem isSome_mergeFields : ∀ {place : Place} {fields : Object},
    (∀ entry ∈ fields, Hashable (slots (place.field entry.1) entry.2)) →
      ∃ merged, mergeFields byId place fields = some merged
  | _, [], _ => ⟨[], rfl⟩
  | place, (key, value) :: fields, h => by
      rw [List.forall_mem_cons] at h
      obtain ⟨merged, hmerged⟩ := isSome_merge h.1
      obtain ⟨rest, hrest⟩ := isSome_mergeFields h.2
      exact ⟨(key, merged) :: rest, by rw [mergeFields, hmerged, Option.bind_some, hrest, Option.map_some]⟩

end

end Errors

/-! ## 10. Where a widget stays -/

/-- A step into a list or a dict. -/
inductive Step where
  | item (index : Nat)
  | field (key : String)

/-- **The widget at a path** that goes into no widget of a kind. -/
inductive Stands (closed : Object → Prop) : Place → Json → List Step → Object → Prop
  | here (widget : Object) : Stands closed .widget (.object widget) [] widget
  | item {place : Place} {items : List Json} {index : Nat} {json : Json} {path : List Step} {widget : Object}
      (hitem : items[index]? = some json) (h : Stands closed place.item json path widget) :
      Stands closed place (.array items) (.item index :: path) widget
  | field {place : Place} {fields : Object} {key : String} {json : Json} {path : List Step} {widget : Object}
      (hopen : ¬ (place = .widget ∧ closed fields)) (hfield : fields.get key = some json)
      (h : Stands closed (place.field key) json path widget) :
      Stands closed place (.object fields) (.field key :: path) widget

/-- A stub with the id of a stored widget. -/
def Replaced (stored : List Object) (widget : Object) : Prop :=
  restricted widget = true ∧ ∃ original ∈ stored, idKey widget = idKey original

section Kept

variable {byId : Dict Key Object} {stored : List Object} (hrestores : Restores stored byId)

include hrestores

theorem merge_not_replaced {place : Place} {fields walked merged : Object}
    (hopen : ¬ (place = .widget ∧ Replaced stored fields)) (hwalked : mergeFields byId place fields = some walked)
    (h : merge byId place (.object fields) = some (.object merged)) : merged = walked := by
  rw [merge_object hwalked] at h
  by_cases hrestricted : place = .widget ∧ restricted fields = true
  · rw [if_pos hrestricted] at h
    obtain ⟨key, hkey, h⟩ := Option.map_eq_some_iff.mp h
    have habsent : byId.get key = none := by
      by_contra hne
      obtain ⟨original, horiginal⟩ := Option.ne_none_iff_exists'.mp hne
      obtain ⟨hmem, hid⟩ := hrestores.mem horiginal
      exact hopen ⟨hrestricted.1, hrestricted.2, original, hmem, by rw [hkey, hid]⟩
    rw [habsent, Option.getD_none] at h
    exact (Json.object.inj h).symm
  · rw [if_neg hrestricted] at h
    exact (Json.object.inj (Option.some.inj h)).symm

mutual

/-- **A payload with no such stub stays as it is.** -/
theorem merge_eq_self : ∀ {place json merged}, (∀ widget ∈ slots place json, ¬ Replaced stored widget) →
    merge byId place json = some merged → merged = json
  | _, .null, _, _, h => by cases h; rfl
  | _, .boolean _, _, _, h => by cases h; rfl
  | _, .integer _, _, _, h => by cases h; rfl
  | _, .float _, _, _, h => by cases h; rfl
  | _, .string _, _, _, h => by cases h; rfl
  | place, .array items, _, hnone, h => by
      rw [merge] at h
      rw [slots] at hnone
      obtain ⟨rest, hrest, rfl⟩ := Option.map_eq_some_iff.mp h
      rw [mergeItems_eq_self hnone hrest]
  | place, .object fields, merged, hnone, h => by
      have hbound := h
      rw [merge] at hbound
      obtain ⟨walked, hwalked, -⟩ := Option.bind_eq_some_iff.mp hbound
      have hsame : walked = fields := mergeFields_eq_self (fun entry hentry widget hwidget =>
        hnone widget (mem_slots_object.mpr (.inr ⟨entry, hentry, hwidget⟩))) hwalked
      have hopen : ¬ (place = .widget ∧ Replaced stored fields) := fun hreplaced =>
        hnone fields (mem_slots_object.mpr (.inl ⟨hreplaced.1, rfl⟩)) hreplaced.2
      obtain ⟨others, rfl⟩ := merge_object_eq h
      rw [merge_not_replaced hrestores hopen hwalked h, hsame]

theorem mergeItems_eq_self : ∀ {place items merged},
    (∀ widget ∈ slotsItems place items, ¬ Replaced stored widget) →
      mergeItems byId place items = some merged → merged = items
  | _, [], _, _, h => by cases h; rfl
  | place, item :: items, _, hnone, h => by
      rw [slotsItems, List.forall_mem_append] at hnone
      obtain ⟨json, rest, hjson, hrest, rfl⟩ := mergeItems_cons h
      rw [merge_eq_self hnone.1 hjson, mergeItems_eq_self hnone.2 hrest]

theorem mergeFields_eq_self : ∀ {place : Place} {fields merged : Object},
    (∀ entry ∈ fields, ∀ widget ∈ slots (place.field entry.1) entry.2, ¬ Replaced stored widget) →
      mergeFields byId place fields = some merged → merged = fields
  | _, [], _, _, h => by cases h; rfl
  | place, (key, value) :: fields, _, hnone, h => by
      rw [List.forall_mem_cons] at hnone
      obtain ⟨json, rest, hjson, hrest, rfl⟩ := mergeFields_cons h
      rw [merge_eq_self hnone.1 hjson, mergeFields_eq_self hnone.2 hrest]

end

omit hrestores in
theorem getElem_mergeItems {place : Place} {json : Json} : ∀ {items merged : List Json} {index : Nat},
    mergeItems byId place items = some merged → items[index]? = some json →
      ∃ other, merge byId place json = some other ∧ merged[index]? = some other
  | [], _, _, _, hitem => by
      rw [List.getElem?_nil] at hitem
      cases hitem
  | item :: items, _, index, h, hitem => by
      obtain ⟨other, rest, hother, hrest, rfl⟩ := mergeItems_cons h
      cases index with
      | zero =>
        rw [List.getElem?_cons_zero] at hitem
        cases hitem
        exact ⟨other, hother, rfl⟩
      | succ index =>
        rw [List.getElem?_cons_succ] at hitem ⊢
        exact getElem_mergeItems hrest hitem

/-- **A widget that is no stub keeps its place**, if the path to it leads through no stub that is replaced. -/
theorem stands_merge {place : Place} {json : Json} {path : List Step} {widget : Object}
    (h : Stands (Replaced stored) place json path widget) (hplain : restricted widget = false) :
    ∀ {merged}, merge byId place json = some merged →
      ∃ kept, Stands (fun _ => False) place merged path kept ∧ mergeFields byId .widget widget = some kept := by
  induction h with
  | here widget =>
    intro merged hmerged
    have hbound := hmerged
    rw [merge] at hbound
    obtain ⟨walked, hwalked, -⟩ := Option.bind_eq_some_iff.mp hbound
    rw [merge_object hwalked, hplain, if_neg (by simp)] at hmerged
    cases hmerged
    exact ⟨walked, .here walked, hwalked⟩
  | item hitem _ ih =>
    intro merged hmerged
    rw [merge] at hmerged
    obtain ⟨rest, hrest, rfl⟩ := Option.map_eq_some_iff.mp hmerged
    obtain ⟨other, hother, hget⟩ := getElem_mergeItems hrest hitem
    obtain ⟨kept, hkept, hfields⟩ := ih hplain hother
    exact ⟨kept, .item hget hkept, hfields⟩
  | field hopen hfield _ ih =>
    intro merged hmerged
    have hbound := hmerged
    rw [merge] at hbound
    obtain ⟨walked, hwalked, -⟩ := Option.bind_eq_some_iff.mp hbound
    obtain ⟨others, rfl⟩ := merge_object_eq hmerged
    rw [merge_not_replaced hrestores hopen hwalked hmerged]
    obtain ⟨other, hother, hget⟩ := (get_mergeFields hwalked).1 _ hfield
    obtain ⟨kept, hkept, hfields⟩ := ih hplain hother
    exact ⟨kept, .field (fun hfalse => hfalse.2) hget hkept, hfields⟩

omit hrestores in
theorem keys_mergeFields {place : Place} : ∀ {fields merged : Object},
    mergeFields byId place fields = some merged → merged.map Prod.fst = fields.map Prod.fst
  | [], _, h => by cases h; rfl
  | (key, value) :: fields, _, h => by
      obtain ⟨json, rest, -, hrest, rfl⟩ := mergeFields_cons h
      rw [List.map_cons, List.map_cons, keys_mergeFields hrest]

end Kept

/-! ## 11. Saving loses nothing -/

/-- **A widget that is unchanged**, apart from the stubs on its pages. -/
structure Unchanged (stored : List Object) (widget kept : Object) : Prop where
  keys : kept.map Prod.fst = widget.map Prod.fst
  fields : ∀ key ∉ pageKeys, kept.get key = widget.get key
  pages : (∀ inner ∈ slots .widget (.object widget), ¬ Replaced stored inner) → kept = widget

theorem unchanged_of_mergeFields {byId : Dict Key Object} {stored : List Object} (hrestores : Restores stored byId)
    {widget kept : Object} (h : mergeFields byId .widget widget = some kept) : Unchanged stored widget kept where
  keys := keys_mergeFields h
  fields _ hkey := get_mergeFields_other (Place.field_widget hkey) h
  pages hnone := mergeFields_eq_self hrestores (fun entry hentry inner hinner =>
    hnone inner (mem_slots_object.mpr (.inr ⟨entry, hentry, hinner⟩))) h

theorem widgetSlots_eq {fields : Object} {widget : Object} :
    widget ∈ widgetSlots fields ↔ ∃ entry ∈ fields, widget ∈ slots (Place.page.field entry.1) entry.2 := by
  rw [widgetSlots, mem_slots_object]
  simp

theorem merge_page {byId : Dict Key Object} {fields merged : Object} (h : mergeFields byId .page fields = some merged) :
    merge byId .page (.object fields) = some (.object merged) := by
  rw [merge_object h, if_neg (by simp)]

/-- **Saving a redacted workspace loses nothing**, when every stored widget has an id of its own. What was
    redacted comes back. Of any payload whose stubs have ids that can be keys, the result holds no stub in the
    place of a stored widget, and it keeps each widget that is no stub and is on no page of a replaced one. -/
theorem merge_restores (stored : Object) (h : Identified (widgetSlots stored)) :
    (∀ scope canView, mergeRedactedWidgets stored (redactWorkspaceData scope canView stored) = some stored) ∧
    ∀ incoming,
      (Hashable (widgetSlots incoming) → ∃ merged, mergeRedactedWidgets stored incoming = some merged) ∧
      ∀ merged, mergeRedactedWidgets stored incoming = some merged →
        (∀ widget ∈ widgetSlots merged, ¬ Overwrites (widgetSlots stored) widget) ∧
        ∀ path widget, Stands (Replaced (widgetSlots stored)) .page (.object incoming) path widget →
          restricted widget = false →
            ∃ kept, Stands (fun _ => False) .page (.object merged) path kept ∧
              Unchanged (widgetSlots stored) widget kept := by
  obtain ⟨byId, hbyId, hrestores⟩ := exists_restores h
  have hmerge : ∀ incoming, mergeRedactedWidgets stored incoming = mergeFields byId .page incoming := by
    intro incoming
    rw [mergeRedactedWidgets, hbyId, Option.bind_some]
  have hholds : Holds byId (widgetSlots stored) := by
    intro widget hmem
    obtain ⟨key, hkey, -⟩ := h.carried widget hmem
    exact ⟨key, hkey, hrestores.found widget hmem key hkey⟩
  have hclosed : ∀ widget ∈ widgetSlots stored, ∀ inner ∈ slots .widget (.object widget),
      inner ∈ widgetSlots stored :=
    fun widget hmem inner hinner => slots_subset hinner hmem
  refine ⟨?_, ?_⟩
  · intro scope canView
    rw [hmerge]
    exact mergeFields_redact fun entry hentry widget hwidget =>
      hholds widget (widgetSlots_eq.mpr ⟨entry, hentry, hwidget⟩)
  · intro incoming
    rw [hmerge]
    refine ⟨?_, ?_⟩
    · intro hhashable
      exact isSome_mergeFields fun entry hentry widget hwidget =>
        hhashable widget (widgetSlots_eq.mpr ⟨entry, hentry, hwidget⟩)
    · intro merged hmerged
      refine ⟨not_overwrites hrestores h hclosed (merge_page hmerged), ?_⟩
      intro path widget hstands hplain
      obtain ⟨kept, hkept, hfields⟩ := stands_merge hrestores hstands hplain (merge_page hmerged)
      exact ⟨kept, hkept, unchanged_of_mergeFields hrestores hfields⟩

namespace Sample

/-- A button that peeks at a component. -/
def peek : Object := [("id", .string ['a']), ("address", .string ['@', 'a'])]

def plain : Object := [("id", .string ['b'])]

def ofWidget (widget : Object) : Object := [("layout", .array [.object [("widgets", .array [.object widget])]])]

/-- A stub with a widget on a page of its own. -/
def crafted : Object :=
  [("id", .string ['a']), ("restricted", .boolean true), ("pages", .array [.object (ofWidget plain)])]

theorem identified_peek : Identified (widgetSlots (ofWidget peek)) :=
  ⟨fun widget hmem => ⟨.text ['a'], by rw [List.mem_singleton.mp hmem]; decide, by decide⟩,
    List.nodup_singleton _⟩

end Sample

theorem peek_restored :
    mergeRedactedWidgets (Sample.ofWidget Sample.peek)
      (redactWorkspaceData none (fun _ => false) (Sample.ofWidget Sample.peek)) =
        some (Sample.ofWidget Sample.peek) :=
  (merge_restores (Sample.ofWidget Sample.peek) Sample.identified_peek).1 none fun _ => false

/-- The widget on the page of the stub is no stub, and it is not saved. -/
theorem crafted_stub_drops_widget :
    Identified (widgetSlots (Sample.ofWidget Sample.peek)) ∧
    mergeRedactedWidgets (Sample.ofWidget Sample.peek) (Sample.ofWidget Sample.crafted) =
      some (Sample.ofWidget Sample.peek) ∧
    Sample.plain ∈ widgetSlots (Sample.ofWidget Sample.crafted) ∧ restricted Sample.plain = false ∧
      Sample.plain ∉ widgetSlots (Sample.ofWidget Sample.peek) := by
  refine ⟨Sample.identified_peek, rfl, ?_, rfl, ?_⟩
  · exact List.mem_cons_of_mem _ List.mem_cons_self
  · intro hmem
    have hsame : Sample.plain = Sample.peek := List.mem_singleton.mp hmem
    simp [Sample.plain, Sample.peek] at hsame

end Ceres.Server.Merge
