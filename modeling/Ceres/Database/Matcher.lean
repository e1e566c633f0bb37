/-
  File:      Ceres/Database/Matcher.lean
  Subject:   THE IN-MEMORY MATCHER (`FilterNode::matches` of `rust/ceres-database/src/filter.rs`).

  A live stream filters its records in memory: the matcher reads one serialized record and interprets
  the same tree as the compiler. It stops at the first condition that does not hold. The instants it
  computes may leave the range of a `NaiveDateTime`, where the arithmetic panics; then there is no answer.

  * `NAIVE_MIN`, `NAIVE_MAX`, `instant` -- the range;
  * `FilterNode.All` -- a property of every node of a tree;
  * `equalityHeld`, `operationHeld`, `levelHeld`, `timestampMatches` -- one family of conditions each;
  * `Conditions.matchesOwn` -- the conditions of one node, in field order; `FilterNode.matches` -- a tree;
  * **`matches_true`** -- what the matcher says of a tree, in terms of the node's own conditions and of
    its children.
-/
import Ceres.Database.Filter
import Ceres.Database.Patterns

namespace Ceres.Database

open Ceres.Library
open Ceres.Data

/-! ## 1. Computed instants -/

/-- The first instant of a `NaiveDateTime`. -/
def NAIVE_MIN : Int := daysOf ⟨-262143, 1, 1⟩ * DAY

/-- Its last microsecond. -/
def NAIVE_MAX : Int := daysOf ⟨262142, 12, 31⟩ * DAY + (DAY - 1)

/-- An instant computed from another. Outside of the range the arithmetic panics. -/
def instant (t : Int) : Option Int := if NAIVE_MIN ≤ t ∧ t ≤ NAIVE_MAX then some t else none

/-- The instant an age ago. -/
def ageBound (now : Int) : Option Int → Option (Option Int)
  | none => some none
  | some age => (instant (now - age)).map some

/-- The bounds a `timespan` adds, as they are computed. -/
def Conditions.checkedTimespanBounds (own : Conditions) (now : Int) : Option (Option Int × Option Int) :=
  match own.timespan with
  | none => some (none, none)
  | some timespan =>
    match own.after, own.before with
    | some after, _ => (instant (after + timespan)).map fun bound => (none, some bound)
    | none, some before => (instant (before - timespan)).map fun bound => (some bound, none)
    | none, none => (instant (now - timespan)).map fun bound => (some bound, some now)

/-- The instant a `timespan` reaches from its anchor. -/
def Conditions.spanBound (own : Conditions) (now timespan : Int) : Int :=
  match own.after, own.before with
  | some after, _ => after + timespan
  | none, some before => before - timespan
  | none, none => now - timespan

theorem checkedTimespanBounds_none {own : Conditions} {now : Int} (h : own.timespan = none) :
    own.checkedTimespanBounds now = some (own.timespanBounds now) := by
  unfold Conditions.checkedTimespanBounds Conditions.timespanBounds
  rw [h]

theorem checkedTimespanBounds_some {own : Conditions} {now timespan : Int}
    (h : own.timespan = some timespan) : own.checkedTimespanBounds now =
      (instant (own.spanBound now timespan)).map fun _ => own.timespanBounds now := by
  unfold Conditions.checkedTimespanBounds Conditions.timespanBounds Conditions.spanBound instant
  rw [h]
  cases own.after with
  | some after => simp only []; split <;> rfl
  | none => cases own.before <;> simp only [] <;> split <;> rfl

/-! ## 2. The nodes of a tree -/

/-- A property of every node of a tree. -/
inductive FilterNode.All (P : Conditions → Prop) : FilterNode → Prop where
  | node (own : Conditions) (andChildren orChildren : List FilterNode) :
      P own → (∀ child ∈ andChildren, child.All P) → (∀ child ∈ orChildren, child.All P) →
      (FilterNode.node own andChildren orChildren).All P

theorem all_node_iff {P : Conditions → Prop} {own : Conditions} {andChildren orChildren : List FilterNode} :
    (FilterNode.node own andChildren orChildren).All P ↔
      P own ∧ (∀ child ∈ andChildren, child.All P) ∧ ∀ child ∈ orChildren, child.All P := by
  constructor
  · intro h
    cases h with
    | node _ _ _ hown hands hors => exact ⟨hown, hands, hors⟩
  · intro h
    exact .node own andChildren orChildren h.1 h.2.1 h.2.2

theorem FilterNode.All.imp₂ {P Q S : Conditions → Prop} {node : FilterNode} (hp : node.All P)
    (hq : node.All Q) (h : ∀ own, P own → Q own → S own) : node.All S := by
  induction hp with
  | node own andChildren orChildren hown _ _ ihands ihors =>
    obtain ⟨hown', hands', hors'⟩ := all_node_iff.mp hq
    exact .node own andChildren orChildren (h own hown hown')
      (fun child hchild => ihands child hchild (hands' child hchild))
      fun child hchild => ihors child hchild (hors' child hchild)

/-! ## 3. One field -/

/-- A value of a record as it travels: its raw text, and what the text parses to. -/
structure RawValue where
  raw : Text
  json : Json

/-- The fields of a serialized record. -/
abbrev Fields : Type := String → Option RawValue

def RawValue.string (raw : RawValue) : Option Text :=
  match raw.json with
  | .string text => some text
  | _ => none

def RawValue.boolean (raw : RawValue) : Option Bool :=
  match raw.json with
  | .boolean b => some b
  | _ => none

/-- Whether one record's wire value holds a computed predicate's shape. -/
def holds (shape : Shape) (raw : RawValue) : Bool :=
  match shape with
  | .internal => raw.string.any fun name =>
      textMatches name .starts "__".toList && textMatches name .ends "__".toList
  | .literal wanted => raw.string.any fun held => held == wanted
  | .present => raw.raw != "null".toList

/-- A record's timestamp parsed from its serialized RFC 3339 form. -/
def recordTimestamp (text : Option Text) : Option Int := text.bind parseRfc3339

/-- One time-of-day window of the matcher. -/
def clockHeld (after before : Option Nat) (span value : Nat) : Bool :=
  match clockWindow after before span with
  | none => true
  | some (minimum, maximum, contiguous) =>
    let withinMinimum := decide (minimum ≤ value)
    let withinMaximum := decide (value < maximum)
    if contiguous then withinMinimum && withinMaximum else withinMinimum || withinMaximum

section Matcher

-- the compact text of a parsed value, and the Unicode lower case of a text
variable (jsonText : Json → Text) (lower : Text → Text)

def equalityHeld (field : FilterField) (raw : Option RawValue) (values : Values) : Bool :=
  let text := raw.bind RawValue.string
  match values with
  | .uuids ids => text.any fun text => ids.any fun id => uuidText id == text
  | .stamps stamps => (recordTimestamp text).any fun stamp => stamps.contains stamp
  | .bytes patterns => text.any fun text => patterns.contains (latin1Encode text)
  | .texts texts =>
    if field.family = .jsonValue then raw.any fun raw => texts.contains (jsonText raw.json)
    else text.any fun text => texts.any fun candidate => candidate == text
  | .boolean wanted => (raw.bind RawValue.boolean).any fun held => held == wanted

/-- Lower a value for a case-folding comparison. -/
def fold (text : Text) (insensitive : Bool) : Text := if insensitive then lower text else text

/-- One operation of a field. A JSON payload matches within its serialized text. -/
def operationHeld (field : FilterField) (operation : FieldOperation) (raw : Option RawValue)
    (held : OperationFilter) : Bool :=
  let text := raw.bind RawValue.string
  match held.values with
  | .texts patterns =>
    let subject := if field.family = .json then raw.map RawValue.raw else text
    subject.any fun subject => patterns.any fun pattern =>
      textMatches (fold lower subject operation.insensitive) held.kind
        (fold lower pattern operation.insensitive)
  | .bytes patterns => text.any fun text => patterns.any fun pattern =>
      bytesMatch (latin1Encode text) held.kind pattern
  | _ => false

namespace Conditions

variable (own : Conditions)

/-- The operations of a field, in their declared order. -/
def operationsHeld (field : FilterField) (raw : Option RawValue) : Bool :=
  field.operations.all fun operation =>
    (own.operationOf field operation).all (operationHeld lower field operation raw)

/-- The ordered bounds of a level field. -/
def levelHeld (text : Option Text) : Bool :=
  let position := text.bind levelPosition
  !(own.minLevel.any fun minimum => position.all fun position => position < minimum) &&
    !(own.maxLevel.any fun maximum => position.all fun position => maximum < position)

/-- Whether any timestamp condition is set on this node. -/
def needsTimestamp : Bool :=
  own.after.isSome || own.before.isSome || own.timespan.isSome || own.maxAge.isSome ||
    own.minAge.isSome || own.afterHour.isSome || own.beforeHour.isSome || own.afterMinute.isSome ||
    own.beforeMinute.isSome

/-- Whether a record's timestamp satisfies the window and age conditions. -/
def timestampMatches (stamp now : Int) : Option Bool :=
  if own.after.any fun after => stamp < after then some false
  else if own.before.any fun before => before ≤ stamp then some false
  else
    (own.checkedTimespanBounds now).bind fun span =>
      if span.1.any fun start => stamp < start then some false
      else if span.2.any fun end_ => end_ ≤ stamp then some false
      else
        (ageBound now own.maxAge).bind fun bound =>
          if bound.any fun bound => stamp ≤ bound then some false
          else
            (ageBound now own.minAge).map fun bound =>
              !(bound.any fun bound => bound < stamp) &&
                clockHeld own.afterHour own.beforeHour 24 (hourOf stamp) &&
                clockHeld own.afterMinute own.beforeMinute 60 (minuteOf stamp)

/-- The conditions of one field. -/
def fieldMatches (fields : Fields) (now : Int) (field : FilterField) : Option Bool :=
  let raw := fields field.key
  let text := raw.bind RawValue.string
  if !(own.valuesOf field).all (equalityHeld jsonText field raw) then some false
  else if decide (field.family = .address) &&
      !own.address.all (fun selector => text.any fun text => selector.matches text own.root) then
    some false
  else if !own.operationsHeld lower field raw then some false
  else
    match field.family with
    | .timestamp =>
      match recordTimestamp text with
      | none => some (!own.needsTimestamp)
      | some stamp => own.timestampMatches stamp now
    | .level => some (own.levelHeld text)
    | _ => some true

/-- Whether a record satisfies this node's own conditions. -/
def matchesOwn (schema : Schema) (fields : Fields) (now : Int) : Option Bool :=
  if own.impossible then some false
  else if own.computed.any fun predicate =>
      (fields predicate.1.column).any (holds predicate.1.shape) != predicate.2 then some false
  else schema.fields.allM (own.fieldMatches jsonText lower fields now)

end Conditions

variable (schema : Schema) (fields : Fields) (now : Int)

mutual

/-- Whether a record matches this node's tree: its own conditions and every `and` node holding, or any
    `or` node holding on its own. -/
def FilterNode.matches : FilterNode → Option Bool
  | .node own andChildren orChildren =>
    (own.matchesOwn jsonText lower schema fields now).bind fun held =>
      (if held then matchesAll andChildren else some false).bind fun held =>
        if held then some true else matchesAny orChildren

def matchesAll : List FilterNode → Option Bool
  | [] => some true
  | child :: children => child.matches.bind fun held => if held then matchesAll children else some false

def matchesAny : List FilterNode → Option Bool
  | [] => some false
  | child :: children => child.matches.bind fun held => if held then some true else matchesAny children

end

/-! ## 4. What the matcher says of a tree -/

theorem matchesAll_isSome : ∀ {children : List FilterNode},
    (∀ child ∈ children, (child.matches jsonText lower schema fields now).isSome) →
    (matchesAll jsonText lower schema fields now children).isSome
  | [], _ => rfl
  | child :: children, h => by
      obtain ⟨hchild, hchildren⟩ := List.forall_mem_cons.mp h
      obtain ⟨held, hheld⟩ := Option.isSome_iff_exists.mp hchild
      rw [matchesAll, hheld, Option.bind_some]
      cases held with
      | false => rfl
      | true => exact matchesAll_isSome hchildren

theorem matchesAny_isSome : ∀ {children : List FilterNode},
    (∀ child ∈ children, (child.matches jsonText lower schema fields now).isSome) →
    (matchesAny jsonText lower schema fields now children).isSome
  | [], _ => rfl
  | child :: children, h => by
      obtain ⟨hchild, hchildren⟩ := List.forall_mem_cons.mp h
      obtain ⟨held, hheld⟩ := Option.isSome_iff_exists.mp hchild
      rw [matchesAny, hheld, Option.bind_some]
      cases held with
      | false => exact matchesAny_isSome hchildren
      | true => rfl

/-- **The matcher answers about a tree when it answers about every node's own conditions.** -/
theorem matches_isSome {node : FilterNode}
    (h : node.All fun own => (own.matchesOwn jsonText lower schema fields now).isSome) :
    (node.matches jsonText lower schema fields now).isSome := by
  induction h with
  | node own andChildren orChildren hown _ _ ihands ihors =>
    obtain ⟨held, hheld⟩ := Option.isSome_iff_exists.mp hown
    obtain ⟨all, hall⟩ := Option.isSome_iff_exists.mp (matchesAll_isSome jsonText lower schema fields now ihands)
    have hany := matchesAny_isSome jsonText lower schema fields now ihors
    rw [FilterNode.matches, hheld, Option.bind_some, hall]
    cases held <;> cases all <;> first | rfl | exact hany

theorem matchesAll_true : ∀ {children : List FilterNode},
    matchesAll jsonText lower schema fields now children = some true ↔
      ∀ child ∈ children, child.matches jsonText lower schema fields now = some true
  | [] => by simp [matchesAll]
  | child :: children => by
      rw [matchesAll, List.forall_mem_cons, ← matchesAll_true]
      cases child.matches jsonText lower schema fields now with
      | none => simp
      | some held => cases held <;> simp

theorem matchesAny_true : ∀ {children : List FilterNode},
    (∀ child ∈ children, (child.matches jsonText lower schema fields now).isSome) →
    (matchesAny jsonText lower schema fields now children = some true ↔
      ∃ child ∈ children, child.matches jsonText lower schema fields now = some true)
  | [], _ => by simp [matchesAny]
  | child :: children, h => by
      obtain ⟨hchild, hchildren⟩ := List.forall_mem_cons.mp h
      obtain ⟨held, hheld⟩ := Option.isSome_iff_exists.mp hchild
      simp only [matchesAny, hheld, Option.bind_some, List.mem_cons, exists_eq_or_imp]
      cases held with
      | true => simp
      | false =>
        rw [if_neg (by decide), matchesAny_true hchildren]
        simp

/-- **What the matcher says of a tree it answers about**: the node's own conditions and every `and` node
    hold, or some `or` node does. -/
theorem matches_true {own : Conditions} {andChildren orChildren : List FilterNode}
    (h : (FilterNode.node own andChildren orChildren).All fun own =>
      (own.matchesOwn jsonText lower schema fields now).isSome) :
    (FilterNode.node own andChildren orChildren).matches jsonText lower schema fields now = some true ↔
      own.matchesOwn jsonText lower schema fields now = some true ∧
        (∀ child ∈ andChildren, child.matches jsonText lower schema fields now = some true) ∨
      ∃ child ∈ orChildren, child.matches jsonText lower schema fields now = some true := by
  obtain ⟨hown, hands, hors⟩ := all_node_iff.mp h
  obtain ⟨held, hheld⟩ := Option.isSome_iff_exists.mp hown
  obtain ⟨all, hall⟩ := Option.isSome_iff_exists.mp (matchesAll_isSome jsonText lower schema fields now
    fun child hchild => matches_isSome jsonText lower schema fields now (hands child hchild))
  rw [← matchesAll_true, ← matchesAny_true jsonText lower schema fields now fun child hchild =>
    matches_isSome jsonText lower schema fields now (hors child hchild), FilterNode.matches, hheld, hall,
    Option.bind_some]
  cases held <;> cases all <;> simp

end Matcher

end Ceres.Database
