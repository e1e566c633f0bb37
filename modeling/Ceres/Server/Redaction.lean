/-
  File:      Ceres/Server/Redaction.lean
  Subject:   WHAT A VIEWER RECEIVES OF A WORKSPACE (`ceres/__internal__/workspace_redaction.py`:
             `_iter_raw_values`, `_selector_bases`, `iter_widget_targets`, `_iter_layout_slots`,
             `redact_workspace_data`), and which fields the console reads components from
             (`console/app/workspace/models.ts`, `console/app/filters/model.ts`).

  A payload is JSON: a layout is a list of rows, a row has widgets, and a widget may have pages with
  layouts of their own. The walk is one recursion over the JSON that knows at which place it is. It goes
  on below a widget that was replaced, where nothing it changes is part of the result.

  * `redactWorkspaceData` -- the payload with stubs for the widgets that are denied;
  * `SameBut` -- two payloads that differ only inside some widgets;
  * **`redacted_equal_iff`** -- payloads that differ only inside widgets naming a component the viewer
    cannot view come out equal exactly if the walk reads such a component from each of those.
-/
import Ceres.Address
import Ceres.Data.Json

namespace Ceres.Server.Redaction

open Ceres.Library
open Ceres.Data
open Ceres.Address

set_option linter.unusedSectionVars false

/-! ## 1. The targets of a widget -/

/-- Widget configuration keys that hold a component address or selector. -/
def addressKeys : List String := ["address", "commandAddress", "particleAddress", "procedureAddress"]

/-- Widget configuration keys holding pages, each of which is a layout of its own. -/
def pageKeys : List String := ["pages", "slides", "tabs"]

/-- The addresses of the entries of a list, the buttons of a widget or its particles. -/
def entryAddresses (widget : Object) (key : String) : List Json :=
  match widget.get key with
  | some (.array entries) => entries.filterMap fun
    | .object entry => Object.get entry "address"
    | _ => none
  | _ => []

/-- The text in front of the first `::`, or all of it. -/
def beforeColons : Text → Text
  | ':' :: ':' :: _ => []
  | c :: text => c :: beforeColons text
  | [] => []

def queryAddress (widget : Object) : List Json :=
  match widget.get "query" with
  | some (.string query) => [.string (beforeColons query)]
  | _ => []

def filterAddress (widget : Object) : List Json :=
  match widget.get "filter" with
  | some (.object filter) => (Object.get filter "address").toList
  | _ => []

/-- `_iter_raw_values` -/
def rawValues (widget : Object) : List Json :=
  addressKeys.filterMap widget.get ++ entryAddresses widget "buttons" ++ queryAddress widget ++
    filterAddress widget ++ entryAddresses widget "particles"

/-- The base component address of each segment of a selector. A bar stands only between segments, so each
    of them is a selector again. -/
def selectorBases (value : Text) (scope : Option Text) : List Text :=
  match (validated REGEX value).bind fun selector => AddressSelector.asAbsolute selector scope with
  | none => []
  | some selector => (selector.splitOn '|').filterMap fun segment =>
    let base := segment.takeWhile (· ≠ ':')
    if ['@'].isPrefixOf base then validated ADDRESS base else none

/-- The components that one value names. An empty text is the scope. -/
def targetsOf (scope : Option Text) : Json → List Text
  | .string [] => scope.toList
  | .string value => selectorBases value scope
  | _ => []

/-- `iter_widget_targets` -/
def widgetTargets (widget : Object) (scope : Option Text) : List Text :=
  (rawValues widget).flatMap (targetsOf scope)

/-! ## 2. The walk -/

/-- Where in a payload the walk is. A payload has a layout as a page has. -/
inductive Place where
  | layout
  | row
  | widgets
  | widget
  | pages
  | page
  | other
  deriving DecidableEq

def Place.item : Place → Place
  | .layout => .row
  | .widgets => .widget
  | .pages => .page
  | _ => .other

def Place.field : Place → String → Place
  | .row, key => if key = "widgets" then .widgets else .other
  | .widget, key => if key ∈ pageKeys then .pages else .other
  | .page, key => if key = "layout" then .layout else .other
  | _, _ => .other

/-- The value under a key, or `None`. -/
def field (widget : Object) (key : String) : Json := (widget.get key).getD .null

/-- What is left of a widget that is denied. -/
def stub (widget : Object) : Object :=
  [("id", field widget "id"), ("type", field widget "type"), ("name", .string []),
    ("width", field widget "width"), ("restricted", .boolean true)]

section Walk

variable (scope : Option Text) (canView : Text → Bool)

/-- A widget is denied when any of its targets fails `canView`. -/
def denied (widget : Object) : Bool :=
  let targets := widgetTargets widget scope
  !targets.isEmpty && !targets.all canView

mutual

def redact (place : Place) : Json → Json
  | .null => .null
  | .boolean b => .boolean b
  | .integer n => .integer n
  | .float bits => .float bits
  | .string s => .string s
  | .array items => .array (redactItems place.item items)
  | .object fields =>
    if place = .widget ∧ denied scope canView fields = true then .object (stub fields)
    else .object (redactFields place fields)

def redactItems (place : Place) : List Json → List Json
  | [] => []
  | item :: items => redact place item :: redactItems place items

def redactFields (place : Place) : List (String × Json) → List (String × Json)
  | [] => []
  | (key, value) :: fields => (key, redact (place.field key) value) :: redactFields place fields

end

def redactWorkspaceData (data : Object) : Object := redactFields scope canView .page data

end Walk

/-! ## 3. What the console reads -/

/-- The kinds of widgets that list records, which have a filter bar. -/
def recordTypes : List Text := ["messages".toList, "particles".toList, "alerts".toList, "logs".toList]

def widgetType (widget : Object) : Text :=
  match widget.get "type" with
  | some (.string type) => type
  | _ => []

def conditionAddress (condition : Object) : List Json :=
  match Object.get condition "kind", Object.get condition "value" with
  | some (.string kind), some (.string (c :: value)) =>
    if kind = "address".toList then [.string (c :: value)] else []
  | _, _ => []

mutual

/-- The address conditions of a query, in its blocks at any depth. An item with an `op` is a block. -/
def itemAddresses : Json → List Json
  | .object fields =>
    if (Object.get fields "op").isSome then childAddresses fields else conditionAddress fields
  | .null => []
  | .boolean _ => []
  | .integer _ => []
  | .float _ => []
  | .string _ => []
  | .array _ => []

def childAddresses : List (String × Json) → List Json
  | [] => []
  | (key, value) :: fields => if key = "children" then listAddresses value else childAddresses fields

def listAddresses : Json → List Json
  | .array items => itemsAddresses items
  | .null => []
  | .boolean _ => []
  | .integer _ => []
  | .float _ => []
  | .string _ => []
  | .object _ => []

def itemsAddresses : List Json → List Json
  | [] => []
  | item :: items => itemAddresses item ++ itemsAddresses items

end

/-- The address conditions of a record widget's filter bar. -/
def barAddresses (widget : Object) : List Json :=
  if widgetType widget ∈ recordTypes then ((widget.get "query").map listAddresses).getD [] else []

def filesComponent (widget : Object) : List Json :=
  if widgetType widget = "files".toList then (widget.get "component").toList else []

/-- Every value that the console resolves to components. -/
def consoleValues (widget : Object) : List Json :=
  rawValues widget ++ barAddresses widget ++ filesComponent widget

/-! ## 4. Payloads that differ inside widgets -/

section Same

variable (hidden : Object → Prop)

mutual

/-- **Two payloads that differ only inside widgets for which `hidden` holds**, and that agree on the id, the
    type and the width of these. -/
def SameBut (place : Place) : Json → Json → Prop
  | .null, json => json = .null
  | .boolean b, json => json = .boolean b
  | .integer n, json => json = .integer n
  | .float bits, json => json = .float bits
  | .string s, json => json = .string s
  | .array items, json => ∃ others, json = .array others ∧ SameButItems place.item items others
  | .object fields, json => ∃ others, json = .object others ∧
    ((place = .widget ∧ (hidden fields ∧ hidden others) ∧
        ∀ key ∈ ["id", "type", "width"], field fields key = field others key) ∨
      SameButFields place fields others)

def SameButItems (place : Place) : List Json → List Json → Prop
  | [], others => others = []
  | item :: items, others => ∃ other rest, others = other :: rest ∧ SameBut place item other ∧
    SameButItems place items rest

def SameButFields (place : Place) : List (String × Json) → List (String × Json) → Prop
  | [], others => others = []
  | (key, value) :: fields, others => ∃ other rest, others = (key, other) :: rest ∧
    SameBut (place.field key) value other ∧ SameButFields place fields rest

end

@[simp] theorem Place.item_other : Place.other.item = .other := rfl

@[simp] theorem Place.field_other (key : String) : Place.other.field key = .other := rfl

theorem Place.field_widget {key : String} (hkey : key ∉ pageKeys) : Place.widget.field key = .other :=
  if_neg hkey

mutual

theorem sameBut_refl (place : Place) : ∀ json, SameBut hidden place json json
  | .null => rfl
  | .boolean _ => rfl
  | .integer _ => rfl
  | .float _ => rfl
  | .string _ => rfl
  | .array items => ⟨items, rfl, sameButItems_refl place.item items⟩
  | .object fields => ⟨fields, rfl, .inr (sameButFields_refl place fields)⟩

theorem sameButItems_refl (place : Place) : ∀ items, SameButItems hidden place items items
  | [] => rfl
  | item :: items => ⟨item, items, rfl, sameBut_refl place item, sameButItems_refl place items⟩

theorem sameButFields_refl (place : Place) : ∀ fields, SameButFields hidden place fields fields
  | [] => rfl
  | (key, value) :: fields =>
    ⟨value, fields, rfl, sameBut_refl (place.field key) value, sameButFields_refl place fields⟩

end

variable {hidden}

mutual

/-- Away from the layout the payloads are equal. -/
theorem eq_of_sameBut : ∀ {json other}, SameBut hidden .other json other → other = json
  | .null, _, h => h
  | .boolean _, _, h => h
  | .integer _, _, h => h
  | .float _, _, h => h
  | .string _, _, h => h
  | .array items, _, h => by
      obtain ⟨others, rfl, h⟩ := h
      rw [eq_of_sameButItems h]
  | .object fields, _, h => by
      obtain ⟨others, rfl, h | h⟩ := h
      · exact absurd h.1 (by decide)
      · rw [eq_of_sameButFields h]

theorem eq_of_sameButItems : ∀ {items others}, SameButItems hidden .other items others → others = items
  | [], _, h => h
  | item :: items, _, h => by
      obtain ⟨other, rest, rfl, hitem, hitems⟩ := h
      rw [eq_of_sameBut hitem, eq_of_sameButItems hitems]

theorem eq_of_sameButFields : ∀ {fields others}, SameButFields hidden .other fields others → others = fields
  | [], _, h => h
  | (key, value) :: fields, _, h => by
      obtain ⟨other, rest, rfl, hvalue, hfields⟩ := h
      rw [eq_of_sameBut hvalue, eq_of_sameButFields hfields]

end

/-- **The fields that hold no layouts are equal.** -/
theorem get_of_sameButFields {place : Place} {key : String} (hkey : place.field key = .other) :
    ∀ {fields others : Object}, SameButFields hidden place fields others → others.get key = fields.get key
  | [], _, h => by
      rw [SameButFields] at h
      rw [h]
  | (name, value) :: fields, _, h => by
      rw [SameButFields] at h
      obtain ⟨other, rest, rfl, hvalue, hfields⟩ := h
      rw [Object.get_cons, Object.get_cons]
      by_cases hname : name = key
      · rw [if_pos hname, if_pos hname]
        rw [hname, hkey] at hvalue
        rw [eq_of_sameBut hvalue]
      · rw [if_neg hname, if_neg hname]
        exact get_of_sameButFields hkey hfields

theorem rawValues_of_sameButFields {fields others : Object} (h : SameButFields hidden .widget fields others) :
    rawValues others = rawValues fields := by
  have hget : ∀ key, key ∉ pageKeys → Object.get others key = Object.get fields key :=
    fun key hkey => get_of_sameButFields (Place.field_widget hkey) h
  unfold rawValues entryAddresses queryAddress filterAddress
  rw [hget "buttons" (by decide), hget "query" (by decide), hget "filter" (by decide),
    hget "particles" (by decide)]
  congr 4
  exact List.filterMap_congr fun key hkey => hget key ((by decide : ∀ key ∈ addressKeys, key ∉ pageKeys) key hkey)

theorem kept_of_sameButFields {fields others : Object} (h : SameButFields hidden .widget fields others) :
    ∀ key ∈ ["id", "type", "width"], field fields key = field others key := by
  intro key hkey
  have hpages : key ∉ pageKeys := (by decide : ∀ key ∈ ["id", "type", "width"], key ∉ pageKeys) key hkey
  unfold field
  rw [get_of_sameButFields (Place.field_widget hpages) h]

theorem denied_of_sameButFields {scope : Option Text} {canView : Text → Bool} {fields others : Object}
    (h : SameButFields hidden .widget fields others) :
    denied scope canView others = denied scope canView fields := by
  unfold denied widgetTargets
  rw [rawValues_of_sameButFields h]

end Same

/-! ## 5. What is redacted -/

section Theorems

variable {scope : Option Text} {canView : Text → Bool}

mutual

theorem redact_other : ∀ json, redact scope canView .other json = json
  | .null => rfl
  | .boolean _ => rfl
  | .integer _ => rfl
  | .float _ => rfl
  | .string _ => rfl
  | .array items => by
      rw [redact, Place.item_other, redactItems_other items]
  | .object fields => by
      rw [redact, if_neg (by simp), redactFields_other fields]

theorem redactItems_other : ∀ items, redactItems scope canView .other items = items
  | [] => rfl
  | item :: items => by
      rw [redactItems, redact_other item, redactItems_other items]

theorem redactFields_other : ∀ fields, redactFields scope canView .other fields = fields
  | [] => rfl
  | (key, value) :: fields => by
      rw [redactFields, Place.field_other, redact_other value, redactFields_other fields]

end

theorem redactFields_widget : ∀ {fields : Object}, (∀ key ∈ fields.map Prod.fst, key ∉ pageKeys) →
    redactFields scope canView .widget fields = fields
  | [], _ => rfl
  | (key, value) :: fields, h => by
      rw [List.map_cons, List.forall_mem_cons] at h
      rw [redactFields, Place.field_widget h.1, redact_other value, redactFields_widget h.2]

theorem keys_redactFields (place : Place) : ∀ fields : Object,
    (redactFields scope canView place fields).map Prod.fst = fields.map Prod.fst
  | [] => rfl
  | (key, value) :: fields => by
      rw [redactFields, List.map_cons, List.map_cons, keys_redactFields place fields]

theorem get_eq_none {key : String} : ∀ {fields : Object}, key ∉ fields.map Prod.fst → fields.get key = none
  | [], _ => rfl
  | entry :: fields, h => by
      rw [List.map_cons, List.mem_cons, not_or] at h
      rw [Object.get_cons, if_neg (Ne.symm h.1), get_eq_none h.2]

/-- A widget with the keys of a stub holds only what the walk reads. -/
theorem consoleValues_eq {widget : Object} (hquery : "query" ∉ widget.map Prod.fst)
    (hcomponent : "component" ∉ widget.map Prod.fst) : consoleValues widget = rawValues widget := by
  unfold consoleValues barAddresses filesComponent
  rw [get_eq_none hquery, get_eq_none hcomponent]
  simp

theorem denied_iff {widget : Object} : denied scope canView widget = true ↔
    ∃ target ∈ (rawValues widget).flatMap (targetsOf scope), canView target = false := by
  unfold denied widgetTargets
  simp only [Bool.and_eq_true, Bool.not_eq_true', List.all_eq_false, List.isEmpty_eq_false_iff]
  constructor
  · intro h
    obtain ⟨target, hmem, hview⟩ := h.2
    exact ⟨target, hmem, by simpa using hview⟩
  · intro h
    obtain ⟨target, hmem, hview⟩ := h
    exact ⟨List.ne_nil_of_mem hmem, target, hmem, by simpa using hview⟩

variable (scope canView)

/-- A widget that names a component the viewer cannot view, in any field that the console reads. A widget
    of a kind that names components holds no pages. -/
def Restricted (widget : Object) : Prop :=
  (∃ target ∈ (consoleValues widget).flatMap (targetsOf scope), canView target = false) ∧
    ∀ key ∈ widget.map Prod.fst, key ∉ pageKeys

/-- A widget that names such a component in a field the walk reads. -/
def Walked (widget : Object) : Prop :=
  ∃ target ∈ (rawValues widget).flatMap (targetsOf scope), canView target = false

variable {scope canView}

theorem stub_congr {widget other : Object}
    (h : ∀ key ∈ ["id", "type", "width"], field widget key = field other key) : stub widget = stub other := by
  unfold stub
  rw [h "id" (by decide), h "type" (by decide), h "width" (by decide)]

mutual

/-- **What differs inside walked widgets is hidden.** -/
theorem redact_of_sameBut : ∀ {place json other}, SameBut (Walked scope canView) place json other →
    redact scope canView place json = redact scope canView place other
  | _, .null, _, h => by
      rw [show _ = Json.null from h]
  | _, .boolean b, _, h => by
      rw [show _ = Json.boolean b from h]
  | _, .integer n, _, h => by
      rw [show _ = Json.integer n from h]
  | _, .float bits, _, h => by
      rw [show _ = Json.float bits from h]
  | _, .string s, _, h => by
      rw [show _ = Json.string s from h]
  | place, .array items, _, h => by
      obtain ⟨others, rfl, h⟩ := h
      rw [redact, redact, redactItems_of_sameBut h]
  | place, .object fields, _, h => by
      obtain ⟨others, rfl, h | h⟩ := h
      · obtain ⟨hplace, hwalked, hkept⟩ := h
        rw [redact, redact, if_pos ⟨hplace, denied_iff.mpr hwalked.1⟩,
          if_pos ⟨hplace, denied_iff.mpr hwalked.2⟩, stub_congr hkept]
      · rw [redact, redact, redactFields_of_sameBut h]
        by_cases hplace : place = .widget
        · subst hplace
          rw [denied_of_sameButFields h, stub_congr (kept_of_sameButFields h)]
        · rw [if_neg (fun h => hplace h.1), if_neg (fun h => hplace h.1)]

theorem redactItems_of_sameBut : ∀ {place items others},
    SameButItems (Walked scope canView) place items others →
      redactItems scope canView place items = redactItems scope canView place others
  | _, [], _, h => by
      rw [show _ = [] from h]
  | place, item :: items, _, h => by
      obtain ⟨other, rest, rfl, hitem, hitems⟩ := h
      rw [redactItems, redactItems, redact_of_sameBut hitem, redactItems_of_sameBut hitems]

theorem redactFields_of_sameBut : ∀ {place fields others},
    SameButFields (Walked scope canView) place fields others →
      redactFields scope canView place fields = redactFields scope canView place others
  | _, [], _, h => by
      rw [show _ = [] from h]
  | place, (key, value) :: fields, _, h => by
      obtain ⟨other, rest, rfl, hvalue, hfields⟩ := h
      rw [redactFields, redactFields, redact_of_sameBut hvalue, redactFields_of_sameBut hfields]

end

theorem denied_of_redacted_eq_stub {widget other : Object} (h : Restricted scope canView widget)
    (heq : redactFields scope canView .widget widget = stub other) : denied scope canView widget = true := by
  have hkeys : widget.map Prod.fst = ["id", "type", "name", "width", "restricted"] := by
    rw [← @keys_redactFields scope canView .widget widget, heq]
    rfl
  have hvalues : consoleValues widget = rawValues widget := by
    refine consoleValues_eq ?_ ?_ <;> rw [hkeys] <;> decide
  obtain ⟨hnamed, -⟩ := h
  rw [hvalues] at hnamed
  exact denied_iff.mpr hnamed

/-- Two widgets that are restricted and come out equal are both denied or equal. -/
theorem restricted_cases {widget other : Object} (hwidget : Restricted scope canView widget)
    (hother : Restricted scope canView other)
    (heq : redact scope canView .widget (.object widget) = redact scope canView .widget (.object other)) :
    (Walked scope canView widget ∧ Walked scope canView other) ∨ widget = other := by
  rw [redact, redact] at heq
  by_cases hw : denied scope canView widget = true
  · rw [if_pos ⟨rfl, hw⟩] at heq
    by_cases ho : denied scope canView other = true
    · exact .inl ⟨denied_iff.mp hw, denied_iff.mp ho⟩
    · rw [if_neg (fun h => ho h.2), Json.object.injEq] at heq
      exact absurd (denied_of_redacted_eq_stub hother heq.symm) ho
  · rw [if_neg (fun h => hw h.2)] at heq
    by_cases ho : denied scope canView other = true
    · rw [if_pos ⟨rfl, ho⟩, Json.object.injEq] at heq
      exact absurd (denied_of_redacted_eq_stub hwidget heq) hw
    · rw [if_neg (fun h => ho h.2), Json.object.injEq, redactFields_widget hwidget.2,
        redactFields_widget hother.2] at heq
      exact .inr heq

mutual

/-- **What comes out equal differs inside walked widgets.** -/
theorem sameBut_of_redact : ∀ {place json other}, SameBut (Restricted scope canView) place json other →
    redact scope canView place json = redact scope canView place other →
      SameBut (Walked scope canView) place json other
  | _, .null, _, h, _ => h
  | _, .boolean _, _, h, _ => h
  | _, .integer _, _, h, _ => h
  | _, .float _, _, h, _ => h
  | _, .string _, _, h, _ => h
  | place, .array items, _, h, heq => by
      obtain ⟨others, rfl, h⟩ := h
      rw [redact, redact, Json.array.injEq] at heq
      exact ⟨others, rfl, sameButItems_of_redact h heq⟩
  | place, .object fields, _, h, heq => by
      obtain ⟨others, rfl, h | h⟩ := h
      · obtain ⟨rfl, hrestricted, hkept⟩ := h
        rcases restricted_cases hrestricted.1 hrestricted.2 heq with hwalked | hsame
        · exact ⟨others, rfl, .inl ⟨rfl, hwalked, hkept⟩⟩
        · rw [hsame]
          exact ⟨others, rfl, .inr (sameButFields_refl _ .widget others)⟩
      · by_cases hdenied : place = .widget ∧ denied scope canView fields = true
        · obtain ⟨rfl, hdenied⟩ := hdenied
          have hother : denied scope canView others = true := by
            rw [denied_of_sameButFields h]
            exact hdenied
          exact ⟨others, rfl, .inl ⟨rfl, ⟨denied_iff.mp hdenied, denied_iff.mp hother⟩,
            kept_of_sameButFields h⟩⟩
        · have hother : ¬ (place = .widget ∧ denied scope canView others = true) := by
            intro ⟨hplace, hother⟩
            subst hplace
            rw [denied_of_sameButFields h] at hother
            exact hdenied ⟨rfl, hother⟩
          rw [redact, redact, if_neg hdenied, if_neg hother, Json.object.injEq] at heq
          exact ⟨others, rfl, .inr (sameButFields_of_redact h heq)⟩

theorem sameButItems_of_redact : ∀ {place items others},
    SameButItems (Restricted scope canView) place items others →
    redactItems scope canView place items = redactItems scope canView place others →
      SameButItems (Walked scope canView) place items others
  | _, [], _, h, _ => h
  | place, item :: items, _, h, heq => by
      obtain ⟨other, rest, rfl, hitem, hitems⟩ := h
      rw [redactItems, redactItems, List.cons.injEq] at heq
      exact ⟨other, rest, rfl, sameBut_of_redact hitem heq.1, sameButItems_of_redact hitems heq.2⟩

theorem sameButFields_of_redact : ∀ {place fields others},
    SameButFields (Restricted scope canView) place fields others →
    redactFields scope canView place fields = redactFields scope canView place others →
      SameButFields (Walked scope canView) place fields others
  | _, [], _, h, _ => h
  | place, (key, value) :: fields, _, h, heq => by
      obtain ⟨other, rest, rfl, hvalue, hfields⟩ := h
      rw [redactFields, redactFields, List.cons.injEq, Prod.mk.injEq] at heq
      exact ⟨other, rest, rfl, sameBut_of_redact hvalue heq.1.2, sameButFields_of_redact hfields heq.2⟩

end

/-- **Redaction hides what the walk reads**: two payloads that differ only inside widgets naming a component
    the viewer cannot view are redacted to the same exactly if each of these widgets names such a component
    in a field that the walk reads. -/
theorem redacted_equal_iff (scope : Option Text) (canView : Text → Bool) (data other : Object)
    (h : SameButFields (Restricted scope canView) .page data other) :
    redactWorkspaceData scope canView data = redactWorkspaceData scope canView other ↔
      SameButFields (Walked scope canView) .page data other :=
  ⟨sameButFields_of_redact h, redactFields_of_sameBut⟩

end Theorems

/-! ## 6. What the walk does not read -/

namespace Sample

/-- A workspace with one widget. -/
def data (widget : Object) : Object :=
  [("layout", .array [.object [("widgets", .array [.object widget])]])]

def widget (type : String) (fields : Object) : Object :=
  [("id", .string ['w']), ("type", .string type.toList), ("width", .integer 120)] ++ fields

def files (component : Text) : Object := widget "files" [("component", .string component)]

/-- Messages with a condition on the address inside a block. -/
def messages (address : Text) : Object :=
  widget "messages" [("query", .array [.object [("op", .string ['o', 'r']), ("children", .array
    [.object [("kind", .string "address".toList), ("value", .string address)]])]])]

def meter (address : Text) : Object := widget "meter" [("particleAddress", .string address)]

/-- A viewer who may view nothing. -/
def nobody : Text → Bool := fun _ => false

def a : Text := ['@', 'a']

def b : Text := ['@', 'b']

theorem targetsOf_a : targetsOf none (.string a) = [a] := by
  decide

theorem targetsOf_b : targetsOf none (.string b) = [b] := by
  decide

theorem restricted {widget : Object} {address : Text} (haddress : targetsOf none (.string address) = [address])
    (hvalues : consoleValues widget = [.string address]) (hpages : ∀ key ∈ widget.map Prod.fst, key ∉ pageKeys) :
    Restricted none nobody widget := by
  refine ⟨⟨address, ?_, rfl⟩, hpages⟩
  rw [hvalues, List.flatMap_singleton, haddress]
  exact List.mem_singleton.mpr rfl

theorem same {hidden : Object → Prop} {widget other : Object} (hwidget : hidden widget) (hother : hidden other)
    (hkept : ∀ key ∈ ["id", "type", "width"], field widget key = field other key) :
    SameButFields hidden .page (data widget) (data other) := by
  have hitem : SameBut hidden .widget (.object widget) (.object other) :=
    ⟨other, rfl, .inl ⟨rfl, ⟨hwidget, hother⟩, hkept⟩⟩
  have hrow : SameBut hidden .row (.object [("widgets", .array [.object widget])])
      (.object [("widgets", .array [.object other])]) :=
    ⟨_, rfl, .inr ⟨_, _, rfl, ⟨_, rfl, _, _, rfl, hitem, rfl⟩, rfl⟩⟩
  exact ⟨_, _, rfl, ⟨_, rfl, _, _, rfl, hrow, rfl⟩, rfl⟩

end Sample

/-- Neither the component of a files widget nor a condition of a filter bar is hidden. -/
theorem files_and_bar_leak :
    (SameButFields (Restricted none Sample.nobody) .page (Sample.data (Sample.files Sample.a))
        (Sample.data (Sample.files Sample.b)) ∧
      redactWorkspaceData none Sample.nobody (Sample.data (Sample.files Sample.a)) ≠
        redactWorkspaceData none Sample.nobody (Sample.data (Sample.files Sample.b))) ∧
    SameButFields (Restricted none Sample.nobody) .page (Sample.data (Sample.messages Sample.a))
        (Sample.data (Sample.messages Sample.b)) ∧
      redactWorkspaceData none Sample.nobody (Sample.data (Sample.messages Sample.a)) ≠
        redactWorkspaceData none Sample.nobody (Sample.data (Sample.messages Sample.b)) := by
  refine ⟨⟨?_, fun h => ?_⟩, ?_, fun h => ?_⟩
  · exact Sample.same (Sample.restricted Sample.targetsOf_a rfl (by decide))
      (Sample.restricted Sample.targetsOf_b rfl (by decide)) (by simp [Sample.files, Sample.widget, field, Object.get])
  · have hsame : Sample.data (Sample.files Sample.a) = Sample.data (Sample.files Sample.b) := h
    simp [Sample.data, Sample.files, Sample.widget, Sample.a, Sample.b] at hsame
  · exact Sample.same (Sample.restricted Sample.targetsOf_a rfl (by decide))
      (Sample.restricted Sample.targetsOf_b rfl (by decide)) (by simp [Sample.messages, Sample.widget, field, Object.get])
  · have hsame : Sample.data (Sample.messages Sample.a) = Sample.data (Sample.messages Sample.b) := h
    simp [Sample.data, Sample.messages, Sample.widget, Sample.a, Sample.b] at hsame

theorem meter_hidden :
    SameButFields (Restricted none Sample.nobody) .page (Sample.data (Sample.meter Sample.a))
        (Sample.data (Sample.meter Sample.b)) ∧
      redactWorkspaceData none Sample.nobody (Sample.data (Sample.meter Sample.a)) =
        redactWorkspaceData none Sample.nobody (Sample.data (Sample.meter Sample.b)) := by
  have ha : Restricted none Sample.nobody (Sample.meter Sample.a) :=
    Sample.restricted Sample.targetsOf_a rfl (by decide)
  have hb : Restricted none Sample.nobody (Sample.meter Sample.b) :=
    Sample.restricted Sample.targetsOf_b rfl (by decide)
  have hkept : ∀ key ∈ ["id", "type", "width"],
      field (Sample.meter Sample.a) key = field (Sample.meter Sample.b) key := by
    simp [Sample.meter, Sample.widget, field, Object.get]
  have hsame := Sample.same ha hb hkept
  exact ⟨hsame, (redacted_equal_iff none Sample.nobody _ _ hsame).mpr (Sample.same ha.1 hb.1 hkept)⟩

end Ceres.Server.Redaction
