/-
  File:      Ceres/Console/Compile.lean
  Subject:   COMPILING THE FILTER BAR (`console/app/filters/compile.ts`, `console/app/filters/definitions.ts`)
             FOR THE ENGINE (`rust/ceres-database/src/filter.rs`).

  The bar shows a tree; the engine reads a mapping. Conditions at the root merge into one mapping, a repeat
  of a kind and each block become `and` terms, and an `or` block becomes a node whose own part stands for
  its first child.

  * `compileQuery` -- the compiler;
  * `filterDefinitions`, `definitionsFor` -- the kinds a record kind's bar knows;
  * `meaningOf` -- what the engine says of a record for one condition alone; `holds`, `allHold`, `anyHolds`
    -- what the bar shows, in those terms;
  * `reads_compiled` -- a block is read back as it is shown, at any depth;
  * **`compileQuery_matches`** -- so is the query, when its root holds no conditions that the engine reads
    together.
-/
import Ceres.Console.Query
import Ceres.Console.Selector
import Ceres.Database.Joined

namespace Ceres.Console.Query

open Ceres.Library
open Ceres.Data
open Ceres.Database

set_option linter.unusedSectionVars false

/-! ## 1. The compiler -/

/-- Whether a condition value counts as set. Blank text is an unfinished condition. -/
def hasValue : Json → Bool
  | .null => false
  | .string text => Selector.trim text != []
  | _ => true

def hasKey (object : Object) (key : String) : Bool := object.any fun entry => entry.1 = key

/-- The mapping so far, and its `and` terms. -/
abbrev Compiling : Type := Object × List Json

/-- One turn of the loop of `compiledItems`; `group` is what a block compiles to. -/
def compileItem (state : Compiling) (item : FilterItem Json) (group : Option Object) : Compiling :=
  match item with
  | .block _ _ _ =>
    match group with
    | none => state
    | some group => (state.1, state.2 ++ [.object group])
  | .condition _ kind value =>
    if !hasValue value then state
    -- a field can only be named once at one level, so a repeat becomes its own `and` term
    else if hasKey state.1 kind then (state.1, state.2 ++ [.object [(kind, value)]])
    else (state.1 ++ [(kind, value)], state.2)

def withAnd (state : Compiling) : Object :=
  if state.2.isEmpty then state.1 else state.1.insert "and" (.array state.2)

/-- A block's compiled children as one term. -/
def joinChildren (op : BlockOp) (children : List Object) : Option Object :=
  match children with
  | [] => none
  | [child] => some child
  | child :: rest =>
    match op with
    | .and_ => some [("and", .array ((child :: rest).map .object))]
    | .or_ => some [("and", .array [.object child]), ("or", .array (rest.map .object))]

/-- The children that compile to something. -/
def nonempty (child : Option Object) : Option Object := child.filter fun child => !child.isEmpty

mutual

/-- One child of a block: a block, or a list of one condition. -/
def FilterItem.compiled : FilterItem Json → Option Object
  | .condition id kind value => some (withAnd (compileItem ([], []) (.condition id kind value) none))
  | .block _ op children => joinChildren op ((compiledChildren children).filterMap nonempty)

def compiledChildren : List (FilterItem Json) → List (Option Object)
  | [] => []
  | item :: rest => item.compiled :: compiledChildren rest

end

def compiledItems (items : List (FilterItem Json)) : Object :=
  withAnd (items.foldl (fun state item => compileItem state item item.compiled) ([], []))

/-- Compile the bar's query into the filter the record APIs accept. -/
def compileQuery (query : FilterQuery Json) : Object := compiledItems query

/-! ## 2. The kinds of conditions -/

/-- The record kinds whose views carry a filter bar. -/
inductive RecordKind where
  | messages
  | particles
  | alerts
  | logs
  deriving DecidableEq, Repr

def RecordKind.table : RecordKind → Table
  | messages => .messages
  | particles => .particles
  | alerts => .alerts
  | logs => .logs

def allKinds : List RecordKind := [.messages, .particles, .alerts, .logs]

/-- Every filter kind the bar knows, and the record kinds whose bars offer it. -/
def filterDefinitions : List (String × List RecordKind) :=
  [("contains", [.messages, .logs]), ("prefix", [.messages, .logs]), ("suffix", [.messages, .logs]),
    ("data_contains", [.particles, .alerts]), ("data_prefix", [.particles, .alerts]),
    ("data_suffix", [.particles, .alerts]), ("type", [.particles]), ("type_contains", [.particles, .alerts]),
    ("type_prefix", [.particles, .alerts]), ("type_suffix", [.particles, .alerts]), ("address", allKinds),
    ("connection", [.messages, .particles]), ("connection_contains", [.messages, .particles]),
    ("direction", [.messages]), ("level", [.alerts, .logs]), ("min_level", [.alerts, .logs]),
    ("max_level", [.alerts, .logs]), ("after", allKinds), ("before", allKinds), ("timespan", allKinds),
    ("after_hour", allKinds), ("before_hour", allKinds), ("after_minute", allKinds), ("before_minute", allKinds)]

/-- The kinds a record kind's bar offers. -/
def definitionsFor (recordKind : RecordKind) : List String :=
  (filterDefinitions.filter fun definition => definition.2.contains recordKind).map Prod.fst

/-- What a kind means to the engine. -/
def roleOf (recordKind : RecordKind) (kind : String) : Option KeyRole := recordKind.table.schema.resolve kind

def slotOf (recordKind : RecordKind) (kind : String) : Option Slot := (roleOf recordKind kind).bind KeyRole.slot

/-- Each kind the bar offers fills a slot of its own, and these fill the slots that are read together. -/
theorem registry_slots (recordKind : RecordKind) :
    (∀ kind ∈ definitionsFor recordKind, (slotOf recordKind kind).isSome ∧ kind ≠ "and") ∧
      (∀ kind ∈ definitionsFor recordKind, ∀ kind' ∈ definitionsFor recordKind,
        slotOf recordKind kind = slotOf recordKind kind' → kind = kind') ∧ ∀ kind ∈ definitionsFor recordKind,
        slotOf recordKind kind ≠ some (.window .maxAge) ∧ slotOf recordKind kind ≠ some (.window .minAge) ∧
        (slotOf recordKind kind = some (.window .timespan) → kind = "timespan") ∧
        (slotOf recordKind kind = some (.window .after) → kind = "after") ∧
        (slotOf recordKind kind = some (.window .before) → kind = "before") ∧
        (slotOf recordKind kind = some (.clock .afterHour) → kind = "after_hour") ∧
        (slotOf recordKind kind = some (.clock .beforeHour) → kind = "before_hour") ∧
        (slotOf recordKind kind = some (.clock .afterMinute) → kind = "after_minute") ∧
        (slotOf recordKind kind = some (.clock .beforeMinute) → kind = "before_minute") := by
  cases recordKind <;> decide

/-! ## 3. What the bar shows -/

mutual

/-- Whether there is a condition with a value, anywhere in the item. -/
def FilterItem.isSet : FilterItem Json → Bool
  | .condition _ _ value => hasValue value
  | .block _ _ children => anySet children

def anySet : List (FilterItem Json) → Bool
  | [] => false
  | item :: rest => item.isSet || anySet rest

end

section Meaning

-- what one condition says of a record
variable (meaning : String → Json → Bool)

mutual

/-- What an item says of a record: a condition what it says alone, a block the conjunction or the
    disjunction of its children that are set. -/
def FilterItem.holds : FilterItem Json → Bool
  | .condition _ kind value => meaning kind value
  | .block _ .and_ children => allHold children
  | .block _ .or_ children => anyHolds children

def allHold : List (FilterItem Json) → Bool
  | [] => true
  | item :: rest => (!item.isSet || item.holds) && allHold rest

def anyHolds : List (FilterItem Json) → Bool
  | [] => false
  | item :: rest => (item.isSet && item.holds) || anyHolds rest

end

/-- What an item adds to what its list says: a condition with a value, or what a block says. -/
abbrev Sentence : Type := (String × Json) ⊕ Bool

def Sentence.truth : Sentence → Bool
  | .inl condition => meaning condition.1 condition.2
  | .inr held => held

def FilterItem.sentences : FilterItem Json → List Sentence
  | .condition _ kind value => if hasValue value then [.inl (kind, value)] else []
  | .block id op children =>
    if anySet children then [.inr ((FilterItem.block id op children).holds meaning)] else []

def sentencesOf (items : List (FilterItem Json)) : List Sentence := items.flatMap (FilterItem.sentences meaning)

theorem sentences_all (item : FilterItem Json) :
    (item.sentences meaning).all (Sentence.truth meaning) = (!item.isSet || item.holds meaning) := by
  cases item with
  | condition id kind value =>
    rw [FilterItem.sentences, FilterItem.isSet, FilterItem.holds]
    cases hasValue value with
    | false => rfl
    | true => exact Bool.and_true _
  | block id op children =>
    rw [FilterItem.sentences, FilterItem.isSet]
    cases anySet children with
    | false => rfl
    | true => exact Bool.and_true _

theorem allHold_eq_all : ∀ items : List (FilterItem Json),
    allHold meaning items = (sentencesOf meaning items).all (Sentence.truth meaning)
  | [] => rfl
  | item :: rest => by
      rw [allHold, allHold_eq_all rest, ← sentences_all, ← List.all_append]
      rfl

end Meaning

/-- What a block says of what its children say. -/
def BlockOp.said : BlockOp → List Bool → Bool
  | .and_, held => held.all id
  | .or_, held => held.any id

mutual

/-- The conditions of an item, at any depth. -/
def FilterItem.conditions : FilterItem Json → List (String × Json)
  | .condition _ kind value => [(kind, value)]
  | .block _ _ children => conditionsOf children

def conditionsOf : List (FilterItem Json) → List (String × Json)
  | [] => []
  | item :: rest => item.conditions ++ conditionsOf rest

end

def FilterItem.kindSet : FilterItem Json → Option String
  | .condition _ kind value => if hasValue value then some kind else none
  | .block _ _ _ => none

/-- The kinds of the conditions of a list that have a value. -/
def kindsSet (items : List (FilterItem Json)) : List String := items.filterMap FilterItem.kindSet

/-- No timespan next to `after` or `before`, and no two clock bounds of one unit. -/
def Apart (kinds : List String) : Prop :=
  ("timespan" ∈ kinds → "after" ∉ kinds ∧ "before" ∉ kinds) ∧
    ¬ ("after_hour" ∈ kinds ∧ "before_hour" ∈ kinds) ∧ ¬ ("after_minute" ∈ kinds ∧ "before_minute" ∈ kinds)

instance (kinds : List String) : Decidable (Apart kinds) := by
  unfold Apart
  infer_instance

section Engine

variable {F : Type} (readers : ValueReaders F) (jsonText : Json → Text) (lower : Text → Text)
variable (recordKind : RecordKind) (fields : Fields) (now : Int)

def engineMatches (filter : Object) : Option Bool :=
  (fromJson readers recordKind.table.schema filter).bind fun finished =>
    finished.node.matches jsonText lower recordKind.table.schema fields now

/-- What it says for the filter of one condition alone. -/
def meaningOf (kind : String) (value : Json) : Option Bool :=
  engineMatches readers jsonText lower recordKind fields now [(kind, value)]

/-- The same, where it says something. -/
def meaning (kind : String) (value : Json) : Bool :=
  (meaningOf readers jsonText lower recordKind fields now kind value).getD false

/-- Every condition with a value is of a kind the bar offers, and the engine takes it alone. -/
def Meaningful (conditions : List (String × Json)) : Prop :=
  ∀ condition ∈ conditions, hasValue condition.2 = true →
    condition.1 ∈ definitionsFor recordKind ∧
      (meaningOf readers jsonText lower recordKind fields now condition.1 condition.2).isSome

/-! ## 4. What the engine reads back -/

/-- A finished node without query controls. -/
def bare (node : FilterNode) : Finished := ⟨node, [], none, none⟩

/-- The mapping is taken as a subfilter, and says this of the record. -/
def Reads (object : Object) (held : Bool) : Prop :=
  ∃ node, subfilter readers recordKind.table.schema (.object object) = some (bare node) ∧
    node.matches jsonText lower recordKind.table.schema fields now = some held

theorem finish_bare {own : Conditions} (hsubsample : own.subsample = none) (ands ors : List FilterNode) :
    Reading.finish { own, andGroup := ands.map bare, orGroup := ors.map bare } = some (bare (.node own ands ors)) := by
  have hmissing : own.missing = none := by rw [Conditions.missing, hsubsample]; rfl
  have hcontrol : (ors.map bare).findSome? Finished.control = none := by
    rw [List.findSome?_eq_none_iff]
    intro child hchild
    obtain ⟨node, -, rfl⟩ := List.mem_map.mp hchild
    rfl
  have hnodes : ∀ nodes : List FilterNode, (nodes.map bare).map (·.node) = nodes := by
    intro nodes
    rw [List.map_map]
    exact List.map_id nodes
  have hhoist : ∀ (nodes : List FilterNode) (node : FilterNode),
      (nodes.map bare).foldl Finished.hoist (bare node) = bare node := by
    intro nodes node
    induction nodes with
    | nil => rfl
    | cons child nodes ih => exact ih
  unfold Reading.finish finishNode
  rw [hmissing, hcontrol, hnodes, hnodes]
  exact congrArg some (hhoist ands (.node own ands ors))

theorem matches_node {own : Conditions} {ands ors : List FilterNode} {p q r : Bool}
    (hown : own.matchesOwn jsonText lower recordKind.table.schema fields now = some p)
    (hands : matchesAll jsonText lower recordKind.table.schema fields now ands = some q)
    (hors : matchesAny jsonText lower recordKind.table.schema fields now ors = some r) :
    (FilterNode.node own ands ors).matches jsonText lower recordKind.table.schema fields now =
      some ((p && q) || r) := by
  rw [FilterNode.matches, hown, hands, hors]
  cases p <;> cases q <;> rfl

variable {held : List Bool}

theorem reads_group {objects : List Object}
    (h : List.Forall₂ (Reads readers jsonText lower recordKind fields now) objects held) :
    ∃ nodes : List FilterNode,
      subfilters readers recordKind.table.schema (objects.map .object) = some (nodes.map bare) ∧
      matchesAll jsonText lower recordKind.table.schema fields now nodes = some (held.all id) ∧
      matchesAny jsonText lower recordKind.table.schema fields now nodes = some (held.any id) := by
  induction h with
  | nil => exact ⟨[], rfl, rfl, rfl⟩
  | @cons object b objects held hread _ ih =>
    obtain ⟨node, hnode, hmatches⟩ := hread
    obtain ⟨nodes, hnodes, hall, hany⟩ := ih
    refine ⟨node :: nodes, ?_, ?_, ?_⟩
    · rw [List.map_cons, subfilters, hnode, hnodes]
      rfl
    · rw [matchesAll, hmatches, Option.bind_some, List.all_cons, hall]
      cases b <;> rfl
    · rw [matchesAny, hmatches, Option.bind_some, List.any_cons, hany]
      cases b <;> rfl

theorem reads_several (op : BlockOp) {child : Object} {rest : List Object} {b : Bool}
    (hchild : Reads readers jsonText lower recordKind fields now child b)
    (hrest : List.Forall₂ (Reads readers jsonText lower recordKind fields now) rest held) (hne : rest ≠ []) :
    ∃ object, joinChildren op (child :: rest) = some object ∧ object ≠ [] ∧
      Reads readers jsonText lower recordKind fields now object (op.said (b :: held)) := by
  obtain ⟨second, others, rfl⟩ := List.exists_cons_of_ne_nil hne
  have hempty := matchesOwn_empty jsonText lower fields now recordKind.table.schema
  obtain ⟨hand, hor⟩ := resolve_group recordKind.table.schema
  cases op with
  | and_ =>
    obtain ⟨nodes, hnodes, hall, -⟩ := reads_group readers jsonText lower recordKind fields now
      (List.Forall₂.cons hchild hrest)
    refine ⟨_, rfl, List.cons_ne_nil _ _, .node {} nodes [], ?_, ?_⟩
    · rw [subfilter, readEntries_group readers recordKind.table.schema hand hnodes]
      exact finish_bare rfl nodes []
    · have hnode := matches_node jsonText lower recordKind fields now hempty hall
        (rfl : matchesAny jsonText lower recordKind.table.schema fields now [] = some false)
      rw [hnode, Bool.true_and, Bool.or_false]
      rfl
  | or_ =>
    obtain ⟨first, hfirst, hmatches, -⟩ := reads_group readers jsonText lower recordKind fields now
      (List.Forall₂.cons hchild List.Forall₂.nil)
    rw [List.map_singleton] at hfirst
    obtain ⟨nodes, hnodes, -, hany⟩ := reads_group readers jsonText lower recordKind fields now hrest
    refine ⟨_, rfl, List.cons_ne_nil _ _, .node {} first nodes, ?_, ?_⟩
    · rw [subfilter, readEntries_group readers recordKind.table.schema hand hfirst,
        readEntries_group readers recordKind.table.schema hor hnodes]
      exact finish_bare rfl first nodes
    · have hnode := matches_node jsonText lower recordKind fields now hempty hmatches hany
      rw [hnode, Bool.true_and, List.all_cons, List.all_nil, Bool.and_true]
      rfl

theorem reads_children (op : BlockOp) {children : List Object}
    (h : List.Forall₂ (Reads readers jsonText lower recordKind fields now) children held)
    (hchildren : ∀ child ∈ children, child ≠ []) (hne : children ≠ []) :
    ∃ object, joinChildren op children = some object ∧ object ≠ [] ∧
      Reads readers jsonText lower recordKind fields now object (op.said held) := by
  cases h with
  | nil => exact absurd rfl hne
  | @cons child b rest held hchild hrest =>
    by_cases hrestne : rest = []
    · subst hrestne
      cases hrest
      have hsaid : op.said [b] = b := by cases op <;> simp [BlockOp.said]
      rw [hsaid]
      exact ⟨child, rfl, hchildren child List.mem_cons_self, hchild⟩
    · exact reads_several readers jsonText lower recordKind fields now op hchild hrest hrestne

/-! ## 5. One condition, and a block at any depth -/

theorem hasValue_not_null {value : Json} (h : hasValue value = true) : isNullJson value = false := by
  cases value with
  | null => cases h
  | _ => rfl

theorem one_condition {kind : String} {value : Json} {b : Bool} (hvalue : hasValue value = true)
    (hkind : kind ∈ definitionsFor recordKind)
    (hmeaning : meaningOf readers jsonText lower recordKind fields now kind value = some b) :
    ∃ role slot own, recordKind.table.schema.resolve kind = some role ∧ role.slot = some slot ∧
      slotOf recordKind kind = some slot ∧ applyRole readers {} role value = some own ∧ Delta slot own ∧
      own.matchesOwn jsonText lower recordKind.table.schema fields now = some b := by
  obtain ⟨slot, hslot⟩ := Option.isSome_iff_exists.mp ((registry_slots recordKind).1 kind hkind).1
  obtain ⟨role, hrole, hroleslot⟩ := Option.bind_eq_some_iff.mp hslot
  have hresolve : recordKind.table.schema.resolve kind = some role := hrole
  have hnull := hasValue_not_null hvalue
  cases happly : applyRole readers {} role value with
  | none =>
    exfalso
    have hnone : readEntries readers recordKind.table.schema [(kind, value)] {} = none := by
      rw [readEntries, hnull, Bool.false_and, if_neg Bool.false_ne_true, hresolve]
      cases role with
      | root => cases hroleslot
      | group => cases hroleslot
      | subsample => cases hroleslot
      | computed => cases hroleslot
      | order => cases hroleslot
      | limit => cases hroleslot
      | offset => cases hroleslot
      | _ => simp only [Reading.apply, happly, Option.map_none, Option.bind_none]
    rw [meaningOf, engineMatches, fromJson, hnone] at hmeaning
    cases hmeaning
  | some own =>
    have hdelta := applyRole_delta readers hroleslot happly
    have hread : fromJson readers recordKind.table.schema [(kind, value)] = some (bare (.node own [] [])) := by
      rw [fromJson, readEntries_role readers recordKind.table.schema hnull hresolve happly]
      exact finish_bare hdelta.plain.2 [] []
    rw [meaningOf, engineMatches, hread, Option.bind_some] at hmeaning
    refine ⟨role, slot, own, hresolve, hroleslot, hslot, happly, hdelta, ?_⟩
    cases hown : own.matchesOwn jsonText lower recordKind.table.schema fields now with
    | none =>
      rw [bare, FilterNode.matches, hown] at hmeaning
      cases hmeaning
    | some p =>
      have hnode := @matches_node jsonText lower recordKind fields now own [] [] p true false hown rfl rfl
      have hsame := hnode.symm.trans hmeaning
      rw [Bool.and_true, Bool.or_false] at hsame
      exact hsame

theorem reads_condition {kind : String} {value : Json} {b : Bool} (hvalue : hasValue value = true)
    (hkind : kind ∈ definitionsFor recordKind)
    (hmeaning : meaningOf readers jsonText lower recordKind fields now kind value = some b) :
    Reads readers jsonText lower recordKind fields now [(kind, value)] b := by
  obtain ⟨role, slot, own, hresolve, -, -, happly, hdelta, hown⟩ :=
    one_condition readers jsonText lower recordKind fields now hvalue hkind hmeaning
  refine ⟨.node own [] [], ?_, ?_⟩
  · rw [subfilter, readEntries_role readers recordKind.table.schema (hasValue_not_null hvalue) hresolve happly]
    exact finish_bare hdelta.plain.2 [] []
  · have hnode := @matches_node jsonText lower recordKind fields now own [] [] b true false hown rfl rfl
    rwa [Bool.and_true, Bool.or_false] at hnode

mutual

/-- **A block is read back as it is shown**, and one that is not set compiles to nothing. -/
theorem reads_compiled : ∀ item : FilterItem Json,
    Meaningful readers jsonText lower recordKind fields now item.conditions →
    if item.isSet = true then ∃ object, item.compiled = some object ∧ object ≠ [] ∧
        Reads readers jsonText lower recordKind fields now object
          (item.holds (meaning readers jsonText lower recordKind fields now)) else nonempty item.compiled = none
  | .condition id kind value, h => by
      by_cases hvalue : hasValue value = true
      · obtain ⟨hkind, hsome⟩ := h (kind, value) List.mem_cons_self hvalue
        obtain ⟨b, hb⟩ := Option.isSome_iff_exists.mp hsome
        have hholds : meaning readers jsonText lower recordKind fields now kind value = b := by
          rw [meaning, hb]
          rfl
        rw [FilterItem.isSet, if_pos hvalue, FilterItem.holds, hholds]
        refine ⟨[(kind, value)], ?_, List.cons_ne_nil _ _,
          reads_condition readers jsonText lower recordKind fields now hvalue hkind hb⟩
        simp [FilterItem.compiled, compileItem, hvalue, withAnd, hasKey]
      · rw [FilterItem.isSet, if_neg hvalue]
        simp [FilterItem.compiled, compileItem, hvalue, withAnd, nonempty]
  | .block id op children, h => by
      obtain ⟨held, hread, hall, hany, hset, hne⟩ := reads_compiledChildren children h
      rw [FilterItem.isSet]
      by_cases hempty : (compiledChildren children).filterMap nonempty = []
      · rw [if_neg (by rw [hset.mp hempty]; exact Bool.false_ne_true), FilterItem.compiled, hempty]
        rfl
      · rw [if_pos (by
          rw [← Bool.not_eq_false]
          exact fun hfalse => hempty (hset.mpr hfalse))]
        obtain ⟨object, hobject, hobjectne, hreads⟩ :=
          reads_children readers jsonText lower recordKind fields now op hread hne hempty
        have hsaid : op.said held =
            (FilterItem.block id op children).holds (meaning readers jsonText lower recordKind fields now) := by
          cases op with
          | and_ => exact hall
          | or_ => exact hany
        rw [← hsaid]
        exact ⟨object, hobject, hobjectne, hreads⟩

theorem reads_compiledChildren : ∀ items : List (FilterItem Json),
    Meaningful readers jsonText lower recordKind fields now (conditionsOf items) →
    ∃ held, List.Forall₂ (Reads readers jsonText lower recordKind fields now)
        ((compiledChildren items).filterMap nonempty) held ∧
      held.all id = allHold (meaning readers jsonText lower recordKind fields now) items ∧
      held.any id = anyHolds (meaning readers jsonText lower recordKind fields now) items ∧
      ((compiledChildren items).filterMap nonempty = [] ↔ anySet items = false) ∧
      ∀ child ∈ (compiledChildren items).filterMap nonempty, child ≠ []
  | [], _ => ⟨[], .nil, rfl, rfl, ⟨fun _ => rfl, fun _ => rfl⟩, fun _ h => (List.not_mem_nil h).elim⟩
  | item :: rest, h => by
      obtain ⟨held, hread, hall, hany, hset, hne⟩ := reads_compiledChildren rest fun condition hmem =>
        h condition (List.mem_append_right _ hmem)
      have hitem := reads_compiled item fun condition hmem => h condition (List.mem_append_left _ hmem)
      rw [compiledChildren, allHold, anyHolds, anySet]
      by_cases hisSet : item.isSet = true
      · rw [if_pos hisSet] at hitem
        obtain ⟨object, hobject, hobjectne, hreads⟩ := hitem
        have hkept : nonempty item.compiled = some object := by
          rw [hobject, nonempty, Option.filter_some, if_pos]
          simpa using hobjectne
        rw [List.filterMap_cons_some hkept, hisSet]
        refine ⟨_ :: held, .cons hreads hread, ?_, ?_, ?_, ?_⟩
        · rw [List.all_cons, hall]
          rfl
        · rw [List.any_cons, hany]
          rfl
        · exact ⟨fun h => absurd h (List.cons_ne_nil _ _), fun h => by cases h⟩
        · exact List.forall_mem_cons.mpr ⟨hobjectne, hne⟩
      · rw [if_neg hisSet] at hitem
        have hfalse : item.isSet = false := Bool.eq_false_iff.mpr hisSet
        rw [List.filterMap_cons_none hitem, hfalse]
        exact ⟨held, hread, hall, hany, hset, hne⟩

end

/-! ## 6. The loop over the root -/

/-- An entry of a kind the bar offers, which the engine takes alone. -/
def Taken (entry : String × Json) : Prop :=
  hasValue entry.2 = true ∧ entry.1 ∈ definitionsFor recordKind ∧
    (meaningOf readers jsonText lower recordKind fields now entry.1 entry.2).isSome

/-- What the loop keeps: entries of kinds the bar offers, each once, and terms the engine takes. -/
structure Built (state : Compiling) (held : List Bool) : Prop where
  entries : ∀ entry ∈ state.1, Taken readers jsonText lower recordKind fields now entry
  nodup : (state.1.map Prod.fst).Nodup
  terms : ∃ objects : List Object, state.2 = objects.map .object ∧
    List.Forall₂ (Reads readers jsonText lower recordKind fields now) objects held

theorem Built.push {state : Compiling} {object : Object} {b : Bool}
    (h : Built readers jsonText lower recordKind fields now state held)
    (hread : Reads readers jsonText lower recordKind fields now object b) :
    Built readers jsonText lower recordKind fields now (state.1, state.2 ++ [.object object]) (held ++ [b]) := by
  obtain ⟨objects, hobjects, hreads⟩ := h.terms
  refine ⟨h.entries, h.nodup, objects ++ [object], ?_, ?_⟩
  · rw [hobjects, List.map_append, List.map_singleton]
  · exact List.rel_append hreads (.cons hread .nil)

theorem not_mem_keys {object : Object} {key : String} (h : hasKey object key = false) :
    key ∉ object.map Prod.fst := by
  intro hmem
  obtain ⟨entry, hentry, rfl⟩ := List.mem_map.mp hmem
  have hhas : hasKey object entry.1 = true := List.any_eq_true.mpr ⟨entry, hentry, by simp⟩
  rw [h] at hhas
  cases hhas

def entrySentences (entries : Object) : List Sentence := entries.map Sum.inl

theorem built_compileItem {state : Compiling} (item : FilterItem Json)
    (hitem : Meaningful readers jsonText lower recordKind fields now item.conditions)
    (h : Built readers jsonText lower recordKind fields now state held) : ∃ said : List Sentence,
      Built readers jsonText lower recordKind fields now (compileItem state item item.compiled)
        (held ++ said.map (Sentence.truth (meaning readers jsonText lower recordKind fields now))) ∧
      (entrySentences (compileItem state item item.compiled).1 ++ said).Perm
        (entrySentences state.1 ++ item.sentences (meaning readers jsonText lower recordKind fields now)) := by
  cases item with
  | block id op children =>
    by_cases hset : anySet children = true
    · have hread := reads_compiled readers jsonText lower recordKind fields now _ hitem
      rw [FilterItem.isSet, if_pos hset] at hread
      obtain ⟨object, hobject, -, hreads⟩ := hread
      rw [hobject, FilterItem.sentences, if_pos hset]
      refine ⟨[.inr ((FilterItem.block id op children).holds
        (meaning readers jsonText lower recordKind fields now))], ?_, List.Perm.refl _⟩
      exact h.push readers jsonText lower recordKind fields now hreads
    · obtain ⟨-, -, -, -, hkept, -⟩ :=
        reads_compiledChildren readers jsonText lower recordKind fields now children hitem
      have hnone : (FilterItem.block id op children).compiled = none := by
        rw [FilterItem.compiled, hkept.mpr (Bool.eq_false_iff.mpr hset)]
        rfl
      rw [hnone, FilterItem.sentences, if_neg hset]
      refine ⟨[], ?_, List.Perm.refl _⟩
      rw [List.map_nil, List.append_nil]
      exact h
  | condition id kind value =>
    by_cases hvalue : hasValue value = true
    · obtain ⟨hkind, hsome⟩ := hitem (kind, value) List.mem_cons_self hvalue
      obtain ⟨b, hb⟩ := Option.isSome_iff_exists.mp hsome
      have hholds : meaning readers jsonText lower recordKind fields now kind value = b := by
        rw [meaning, hb]
        rfl
      rw [FilterItem.sentences, if_pos hvalue]
      by_cases hkey : hasKey state.1 kind = true
      · have hstep : ∀ group, compileItem state (.condition id kind value) group =
            (state.1, state.2 ++ [.object [(kind, value)]]) := fun group => by
          simp only [compileItem, hvalue, hkey, Bool.not_true, Bool.false_eq_true, if_false, if_true]
        rw [hstep]
        refine ⟨[.inl (kind, value)], ?_, List.Perm.refl _⟩
        rw [List.map_singleton, Sentence.truth, hholds]
        exact h.push readers jsonText lower recordKind fields now
          (reads_condition readers jsonText lower recordKind fields now hvalue hkind hb)
      · -- the kind is new at the root
        have hstep : ∀ group, compileItem state (.condition id kind value) group =
            (state.1 ++ [(kind, value)], state.2) := fun group => by
          simp only [compileItem, hvalue, hkey, Bool.not_true, Bool.false_eq_true, if_false]
        have hnew : kind ∉ state.1.map Prod.fst := not_mem_keys (Bool.eq_false_iff.mpr hkey)
        rw [hstep]
        refine ⟨[], ⟨fun entry hentry => ?_, ?_, ?_⟩, ?_⟩
        · rcases List.mem_append.mp hentry with hentry | hentry
          · exact h.entries entry hentry
          · rw [List.mem_singleton.mp hentry]
            exact ⟨hvalue, hkind, hsome⟩
        · rw [List.map_append, List.map_singleton]
          exact List.nodup_append.mpr ⟨h.nodup, List.nodup_singleton _, fun a ha b' hb' => by
            rw [List.mem_singleton.mp hb']
            intro heq
            rw [heq] at ha
            exact hnew ha⟩
        · rw [List.map_nil, List.append_nil]
          exact h.terms
        · rw [entrySentences, List.map_append, List.append_nil]
          exact List.Perm.refl _
    · have hstep : ∀ group, compileItem state (.condition id kind value) group = state := fun group => by
        simp only [compileItem, hvalue, Bool.not_false, if_true]
      rw [hstep, FilterItem.sentences, if_neg hvalue]
      refine ⟨[], ?_, List.Perm.refl _⟩
      rw [List.map_nil, List.append_nil]
      exact h

theorem perm_two_steps {α : Type} {start next final first second now later : List α}
    (h : (next ++ now).Perm (start ++ first)) (h' : (final ++ later).Perm (next ++ second)) :
    (final ++ (now ++ later)).Perm (start ++ (first ++ second)) := by
  calc (final ++ (now ++ later)).Perm ((final ++ later) ++ now) := by
        rw [List.append_assoc]
        exact List.perm_append_comm.append_left final
    _ |>.Perm ((next ++ second) ++ now) := h'.append_right now
    _ |>.Perm ((next ++ now) ++ second) := by
        rw [List.append_assoc, List.append_assoc]
        exact List.perm_append_comm.append_left next
    _ |>.Perm (start ++ (first ++ second)) := by
        rw [← List.append_assoc]
        exact h.append_right second

/-- **The whole loop keeps every sentence of the list**, as an entry or as a term. -/
theorem built_fold : ∀ (items : List (FilterItem Json)) {state : Compiling} {held : List Bool},
    Meaningful readers jsonText lower recordKind fields now (conditionsOf items) →
    Built readers jsonText lower recordKind fields now state held → ∃ said : List Sentence,
      Built readers jsonText lower recordKind fields now
        (items.foldl (fun state item => compileItem state item item.compiled) state)
        (held ++ said.map (Sentence.truth (meaning readers jsonText lower recordKind fields now))) ∧
      (entrySentences (items.foldl (fun state item => compileItem state item item.compiled) state).1 ++ said).Perm
        (entrySentences state.1 ++ sentencesOf (meaning readers jsonText lower recordKind fields now) items)
  | [], state, held, _, h => ⟨[], by rw [List.map_nil, List.append_nil]; exact h, List.Perm.refl _⟩
  | item :: rest, state, held, hitems, h => by
      obtain ⟨said₁, hbuilt₁, hperm₁⟩ := built_compileItem readers jsonText lower recordKind fields now item
        (fun condition hmem => hitems condition (List.mem_append_left _ hmem)) h
      obtain ⟨said₂, hbuilt₂, hperm₂⟩ := built_fold rest
        (fun condition hmem => hitems condition (List.mem_append_right _ hmem)) hbuilt₁
      refine ⟨said₁ ++ said₂, ?_, ?_⟩
      · rw [List.map_append, ← List.append_assoc]
        exact hbuilt₂
      · rw [List.foldl_cons, sentencesOf, List.flatMap_cons]
        exact perm_two_steps hperm₁ hperm₂

/-! ## 7. The root is read back -/

def Fills (entry : String × Json) (filled : Slot × Conditions) : Prop :=
  ∃ role, recordKind.table.schema.resolve entry.1 = some role ∧ role.slot = some filled.1 ∧
    slotOf recordKind entry.1 = some filled.1 ∧ isNullJson entry.2 = false ∧
    applyRole readers {} role entry.2 = some filled.2 ∧ Delta filled.1 filled.2 ∧
    filled.2.matchesOwn jsonText lower recordKind.table.schema fields now =
      some (meaning readers jsonText lower recordKind fields now entry.1 entry.2)

def fillOf (entry : String × Json) : Slot × Conditions :=
  ((slotOf recordKind entry.1).getD .address,
    ((roleOf recordKind entry.1).bind fun role => applyRole readers {} role entry.2).getD {})

/-- What entries write into one node. -/
def ownOf (entries : Object) : Conditions :=
  (entries.map (fillOf readers recordKind)).foldl (fun own entry => own.join entry.2) {}

theorem fills_fillOf {entry : String × Json} (h : Taken readers jsonText lower recordKind fields now entry) :
    Fills readers jsonText lower recordKind fields now entry (fillOf readers recordKind entry) := by
  obtain ⟨hvalue, hkind, hsome⟩ := h
  obtain ⟨b, hb⟩ := Option.isSome_iff_exists.mp hsome
  obtain ⟨role, slot, own, hresolve, hslot, hslotOf, happly, hdelta, hown⟩ :=
    one_condition readers jsonText lower recordKind fields now hvalue hkind hb
  have hmeaning : meaning readers jsonText lower recordKind fields now entry.1 entry.2 = b := by
    rw [meaning, hb]
    rfl
  have hrole : roleOf recordKind entry.1 = some role := hresolve
  have hfill : fillOf readers recordKind entry = (slot, own) := by
    rw [fillOf, hslotOf, hrole, Option.bind_some, happly]
    rfl
  rw [hfill]
  exact ⟨role, hresolve, hslot, hslotOf, hasValue_not_null hvalue, happly, hdelta, by rw [hmeaning, hown]⟩

def slotsOf (entries : Object) : List Slot := entries.map fun entry => (fillOf readers recordKind entry).1

theorem slotsOf_eq (entries : Object) : slotsOf readers recordKind entries =
      (entries.map Prod.fst).map fun kind => (slotOf recordKind kind).getD .address := by
  rw [List.map_map]
  rfl

section Entries

variable {entries : Object} (h : ∀ entry ∈ entries, Taken readers jsonText lower recordKind fields now entry)

include h

theorem slots_nodup (hnodup : (entries.map Prod.fst).Nodup) : (slotsOf readers recordKind entries).Nodup := by
  obtain ⟨hsome, hinjective, -⟩ := registry_slots recordKind
  have hregistered : ∀ kind ∈ entries.map Prod.fst, kind ∈ definitionsFor recordKind := by
    intro kind hkind
    obtain ⟨entry, hentry, rfl⟩ := List.mem_map.mp hkind
    exact (h entry hentry).2.1
  rw [slotsOf_eq]
  refine List.Nodup.map_on (fun kind hkind kind' hkind' heq => ?_) hnodup
  refine hinjective kind (hregistered kind hkind) kind' (hregistered kind' hkind') ?_
  obtain ⟨slot, hslot⟩ := Option.isSome_iff_exists.mp (hsome kind (hregistered kind hkind)).1
  obtain ⟨slot', hslot'⟩ := Option.isSome_iff_exists.mp (hsome kind' (hregistered kind' hkind')).1
  rw [hslot, hslot', Option.getD_some, Option.getD_some] at heq
  rw [hslot, hslot', heq]

theorem mem_slotsOf {slot : Slot} (hslot : slot ∈ slotsOf readers recordKind entries) :
    ∃ kind ∈ entries.map Prod.fst, kind ∈ definitionsFor recordKind ∧ slotOf recordKind kind = some slot := by
  obtain ⟨entry, hentry, rfl⟩ := List.mem_map.mp hslot
  obtain ⟨_, _, _, hslotOf, _⟩ := fills_fillOf readers jsonText lower recordKind fields now (h entry hentry)
  exact ⟨entry.1, List.mem_map_of_mem hentry, (h entry hentry).2.1, hslotOf⟩

theorem readEntries_fills (rest : Object) {slots : List Slot} {reading : Reading} (hslots : Filled slots reading.own)
    (hnodup : (slots ++ slotsOf readers recordKind entries).Nodup) :
    readEntries readers recordKind.table.schema (entries ++ rest) reading =
      readEntries readers recordKind.table.schema rest { reading with
          own := (entries.map (fillOf readers recordKind)).foldl (fun own entry => own.join entry.2) reading.own } := by
  induction entries generalizing slots reading with
  | nil => rfl
  | cons entry entries ih =>
    obtain ⟨hentry, hentries⟩ := List.forall_mem_cons.mp h
    obtain ⟨role, hresolve, hslot, -, hnull, happly, hdelta, -⟩ :=
      fills_fillOf readers jsonText lower recordKind fields now hentry
    have hsplit : slots ++ slotsOf readers recordKind (entry :: entries) =
        (slots ++ [(fillOf readers recordKind entry).1]) ++ slotsOf readers recordKind entries := by
      rw [List.append_assoc]
      rfl
    rw [hsplit] at hnodup
    have hfree : reading.own.used (fillOf readers recordKind entry).1 = false := by
      refine Bool.eq_false_iff.mpr fun hused => ?_
      have hdisjoint := (List.nodup_append.mp hnodup.of_append_left).2.2
      exact hdisjoint _ (hslots.used _ hused) _ List.mem_cons_self rfl
    have hjoined := applyRole_join readers hslot hfree {} entry.2
    rw [Conditions.join_empty, happly, Option.map_some] at hjoined
    rw [List.cons_append, readEntries_role readers recordKind.table.schema hnull hresolve hjoined,
      ih hentries (hslots.join hdelta) hnodup]
    rfl

theorem ownOf_filled : Filled (slotsOf readers recordKind entries) (ownOf readers recordKind entries) := by
  have hall : ∀ (more : Object) {slots : List Slot} {own : Conditions},
      (∀ entry ∈ more, Taken readers jsonText lower recordKind fields now entry) → Filled slots own →
      Filled (slots ++ slotsOf readers recordKind more)
        ((more.map (fillOf readers recordKind)).foldl (fun own entry => own.join entry.2) own) := by
    intro more
    induction more with
    | nil =>
      intro slots own _ hslots
      rw [slotsOf, List.map_nil, List.append_nil]
      exact hslots
    | cons entry more ih =>
      intro slots own hmore hslots
      obtain ⟨hentry, hrest⟩ := List.forall_mem_cons.mp hmore
      obtain ⟨_, _, _, _, _, _, hdelta, _⟩ := fills_fillOf readers jsonText lower recordKind fields now hentry
      have hnext := ih hrest (hslots.join hdelta)
      rw [List.append_assoc] at hnext
      exact hnext
  exact hall entries h (filled_empty [])

theorem slots_ages : Slot.window .maxAge ∉ slotsOf readers recordKind entries ∧
    Slot.window .minAge ∉ slotsOf readers recordKind entries := by
  obtain ⟨-, -, hjoint⟩ := registry_slots recordKind
  refine ⟨fun hage => ?_, fun hage => ?_⟩
  · obtain ⟨kind, -, hkind, hslot⟩ := mem_slotsOf readers jsonText lower recordKind fields now h hage
    exact (hjoint kind hkind).1 hslot
  · obtain ⟨kind, -, hkind, hslot⟩ := mem_slotsOf readers jsonText lower recordKind fields now h hage
    exact (hjoint kind hkind).2.1 hslot

theorem slots_separate (hnodup : (entries.map Prod.fst).Nodup) (hapart : Apart (entries.map Prod.fst)) :
    Separate (slotsOf readers recordKind entries) := by
  obtain ⟨-, -, hjoint⟩ := registry_slots recordKind
  have hmem := fun {slot : Slot} => @mem_slotsOf F readers jsonText lower recordKind fields now entries h slot
  refine ⟨slots_nodup readers jsonText lower recordKind fields now h hnodup,
    slots_ages readers jsonText lower recordKind fields now h,
    fun hspan => ⟨fun hafter => ?_, fun hbefore => ?_⟩, fun hours => ?_, fun minutes => ?_⟩
  · obtain ⟨kind, hkey, hkind, hslot⟩ := hmem hspan
    obtain ⟨kind', hkey', hkind', hslot'⟩ := hmem hafter
    rw [(hjoint kind hkind).2.2.1 hslot] at hkey
    rw [(hjoint kind' hkind').2.2.2.1 hslot'] at hkey'
    exact (hapart.1 hkey).1 hkey'
  · obtain ⟨kind, hkey, hkind, hslot⟩ := hmem hspan
    obtain ⟨kind', hkey', hkind', hslot'⟩ := hmem hbefore
    rw [(hjoint kind hkind).2.2.1 hslot] at hkey
    rw [(hjoint kind' hkind').2.2.2.2.1 hslot'] at hkey'
    exact (hapart.1 hkey).2 hkey'
  · obtain ⟨kind, hkey, hkind, hslot⟩ := hmem hours.1
    obtain ⟨kind', hkey', hkind', hslot'⟩ := hmem hours.2
    rw [(hjoint kind hkind).2.2.2.2.2.1 hslot] at hkey
    rw [(hjoint kind' hkind').2.2.2.2.2.2.1 hslot'] at hkey'
    exact hapart.2.1 ⟨hkey, hkey'⟩
  · obtain ⟨kind, hkey, hkind, hslot⟩ := hmem minutes.1
    obtain ⟨kind', hkey', hkind', hslot'⟩ := hmem minutes.2
    rw [(hjoint kind hkind).2.2.2.2.2.2.2.1 hslot] at hkey
    rw [(hjoint kind' hkind').2.2.2.2.2.2.2.2 hslot'] at hkey'
    exact hapart.2.2 ⟨hkey, hkey'⟩

/-- Entries of which none are read together hold together exactly when each holds alone. -/
theorem ownOf_apart (hnodup : (entries.map Prod.fst).Nodup) (hapart : Apart (entries.map Prod.fst)) :
    (ownOf readers recordKind entries).matchesOwn jsonText lower recordKind.table.schema fields now =
      some (entries.all fun entry => meaning readers jsonText lower recordKind fields now entry.1 entry.2) := by
  have hseparate := slots_separate readers jsonText lower recordKind fields now h hnodup hapart
  have hslots : slotsOf readers recordKind entries = (entries.map (fillOf readers recordKind)).map Prod.fst := by
    rw [List.map_map]
    rfl
  rw [hslots] at hseparate
  have hdeltas : ∀ fill ∈ entries.map (fillOf readers recordKind), Delta fill.1 fill.2 ∧
      fill.2.matchesOwn jsonText lower recordKind.table.schema fields now =
        some ((fill.2.matchesOwn jsonText lower recordKind.table.schema fields now).getD false) := by
    intro fill hfill
    obtain ⟨entry, hentry, rfl⟩ := List.mem_map.mp hfill
    obtain ⟨_, _, _, _, _, _, hdelta, hown⟩ := fills_fillOf readers jsonText lower recordKind fields now (h entry hentry)
    exact ⟨hdelta, by rw [hown]; rfl⟩
  obtain ⟨-, hown⟩ := matchesOwn_all jsonText lower fields now recordKind.table.schema _
    (entries.map (fillOf readers recordKind)) (filled_empty []) hseparate hdeltas
    (matchesOwn_empty jsonText lower fields now recordKind.table.schema)
  rw [Bool.true_and, List.all_map] at hown
  have hverdict : (entries.all fun entry => ((fillOf readers recordKind entry).2.matchesOwn jsonText lower
        recordKind.table.schema fields now).getD false) =
      entries.all fun entry => meaning readers jsonText lower recordKind fields now entry.1 entry.2 := by
    rw [Bool.eq_iff_iff, List.all_eq_true, List.all_eq_true]
    refine forall₂_congr fun entry hentry => ?_
    obtain ⟨_, _, _, _, _, _, _, heach⟩ := fills_fillOf readers jsonText lower recordKind fields now (h entry hentry)
    rw [heach]
    rfl
  exact hown.trans (congrArg some hverdict)

end Entries

theorem insert_append {object : Object} {key : String} (value : Json) (h : key ∉ object.map Prod.fst) :
    Object.insert object key value = object ++ [(key, value)] := by
  induction object with
  | nil => rfl
  | cons entry object ih =>
    rw [List.map_cons, List.mem_cons, not_or] at h
    rw [Object.insert, if_neg (Ne.symm h.1), ih h.2, List.cons_append]

theorem Apart.mono {kinds kinds' : List String} (h : Apart kinds) (hsub : ∀ kind ∈ kinds', kind ∈ kinds) :
    Apart kinds' :=
  ⟨fun hspan => ⟨fun hafter => (h.1 (hsub _ hspan)).1 (hsub _ hafter),
      fun hbefore => (h.1 (hsub _ hspan)).2 (hsub _ hbefore)⟩,
    fun hours => h.2.1 ⟨hsub _ hours.1, hsub _ hours.2⟩,
    fun minutes => h.2.2 ⟨hsub _ minutes.1, hsub _ minutes.2⟩⟩

/-- What the loop has built is read back as one node and its `and` terms. -/
theorem built_matches {state : Compiling} {p : Bool}
    (h : Built readers jsonText lower recordKind fields now state held)
    (hown : (ownOf readers recordKind state.1).matchesOwn jsonText lower recordKind.table.schema fields now = some p) :
    engineMatches readers jsonText lower recordKind fields now (withAnd state) = some (p && held.all id) := by
  obtain ⟨objects, hobjects, hreads⟩ := h.terms
  obtain ⟨nodes, hnodes, hall, -⟩ := reads_group readers jsonText lower recordKind fields now hreads
  have hslots : ([] ++ slotsOf readers recordKind state.1).Nodup :=
    slots_nodup readers jsonText lower recordKind fields now h.entries h.nodup
  have hread := fun rest => @readEntries_fills F readers jsonText lower recordKind fields now state.1 h.entries
    rest [] {} (filled_empty []) hslots
  have hfilled := ownOf_filled readers jsonText lower recordKind fields now h.entries
  -- the mapping is the entries, and behind them the terms, if there are any
  have hfinish : fromJson readers recordKind.table.schema (withAnd state) =
      some (bare (.node (ownOf readers recordKind state.1) nodes [])) := by
    unfold withAnd fromJson
    by_cases hempty : state.2.isEmpty = true
    · have hnil : objects = [] := by
        rw [hobjects, List.isEmpty_iff] at hempty
        exact List.map_eq_nil_iff.mp hempty
      subst hnil
      cases hreads
      have hnone : nodes = [] := List.map_eq_nil_iff.mp (Option.some.inj hnodes).symm
      subst hnone
      have hentries := hread []
      rw [List.append_nil] at hentries
      rw [if_pos hempty, hentries]
      exact finish_bare hfilled.subsample [] []
    · have hand : "and" ∉ state.1.map Prod.fst := fun hmem => by
        obtain ⟨entry, hentry, heq⟩ := List.mem_map.mp hmem
        exact ((registry_slots recordKind).1 entry.1 (h.entries entry hentry).2.1).2 heq
      rw [if_neg hempty, insert_append _ hand, hread, hobjects,
        readEntries_group readers recordKind.table.schema (resolve_group recordKind.table.schema).1 hnodes]
      exact finish_bare hfilled.subsample nodes []
  have hnode := matches_node jsonText lower recordKind fields now hown hall
    (rfl : matchesAny jsonText lower recordKind.table.schema fields now [] = some false)
  rw [Bool.or_false] at hnode
  rw [engineMatches, hfinish]
  exact hnode

theorem built_nil : Built readers jsonText lower recordKind fields now ([], []) [] where
  entries := fun _ h => (List.not_mem_nil h).elim
  nodup := List.nodup_nil
  terms := ⟨[], rfl, .nil⟩

/-- The conditions of a query that stand at the top of what it compiles to. -/
def topOf (query : FilterQuery Json) : Object :=
  (query.foldl (fun state item => compileItem state item item.compiled) ([], [])).1

theorem compileQuery_says (query : FilterQuery Json)
    (hmeaningful : Meaningful readers jsonText lower recordKind fields now (conditionsOf query)) :
    (∀ entry ∈ topOf query, Taken readers jsonText lower recordKind fields now entry) ∧
      ((topOf query).map Prod.fst).Nodup ∧ ∃ said : List Sentence, (entrySentences (topOf query) ++ said).Perm
          (sentencesOf (meaning readers jsonText lower recordKind fields now) query) ∧
        ∀ p, (ownOf readers recordKind (topOf query)).matchesOwn jsonText lower recordKind.table.schema fields now =
            some p → engineMatches readers jsonText lower recordKind fields now (compileQuery query) =
            some (p && said.all (Sentence.truth (meaning readers jsonText lower recordKind fields now))) := by
  obtain ⟨said, hbuilt, hperm⟩ := built_fold readers jsonText lower recordKind fields now query hmeaningful
    (built_nil readers jsonText lower recordKind fields now)
  refine ⟨hbuilt.entries, hbuilt.nodup, said, hperm, fun p hown => ?_⟩
  have hmatches := built_matches readers jsonText lower recordKind fields now hbuilt hown
  rw [List.nil_append, List.all_map] at hmatches
  exact hmatches

theorem top_kinds {meaning : String → Json → Bool} {items : List (FilterItem Json)} {entries : Object}
    {said : List Sentence} (h : (entrySentences entries ++ said).Perm (sentencesOf meaning items)) :
    ∀ kind ∈ entries.map Prod.fst, kind ∈ kindsSet items := by
  intro kind hkind
  obtain ⟨entry, hentry, rfl⟩ := List.mem_map.mp hkind
  have hmem : Sum.inl entry ∈ sentencesOf meaning items :=
    h.mem_iff.mp (List.mem_append_left said (List.mem_map_of_mem hentry))
  obtain ⟨item, hitem, hsentence⟩ := List.mem_flatMap.mp hmem
  refine List.mem_filterMap.mpr ⟨item, hitem, ?_⟩
  cases item with
  | condition id kind value =>
    rw [FilterItem.sentences] at hsentence
    split at hsentence
    · rename_i hvalue
      rw [List.mem_singleton] at hsentence
      cases hsentence
      rw [FilterItem.kindSet, if_pos hvalue]
    · cases hsentence
  | block id op children =>
    rw [FilterItem.sentences] at hsentence
    split at hsentence
    · rw [List.mem_singleton] at hsentence
      cases hsentence
    · cases hsentence

theorem entrySentences_all (meaning : String → Json → Bool) (entries : Object) :
    (entrySentences entries).all (Sentence.truth meaning) = entries.all fun entry => meaning entry.1 entry.2 := by
  rw [entrySentences, List.all_map]
  rfl

/-- **The engine says of a compiled query what the bar shows**, for every tree whose conditions it takes one by
    one and whose root holds none that it reads together. -/
theorem compileQuery_matches (query : FilterQuery Json)
    (hmeaningful : Meaningful readers jsonText lower recordKind fields now (conditionsOf query))
    (hapart : Apart (kindsSet query)) :
    engineMatches readers jsonText lower recordKind fields now (compileQuery query) =
      some (allHold (meaning readers jsonText lower recordKind fields now) query) := by
  obtain ⟨htaken, hnodup, said, hperm, hverdict⟩ :=
    compileQuery_says readers jsonText lower recordKind fields now query hmeaningful
  have hown := ownOf_apart readers jsonText lower recordKind fields now htaken hnodup (hapart.mono (top_kinds hperm))
  rw [hverdict _ hown, allHold_eq_all, ← hperm.all_eq, List.all_append, entrySentences_all]

end Engine

/-! ## 8. A query over one message -/

/-- ValueReaders that take texts and clock bounds. -/
def plainReaders : ValueReaders Unit where
  speedate := fun text => if text = "PT1H".toList then some ⟨true, 0, 3600, 0⟩ else none
  cleaned := id
  floats := ⟨fun _ => none, fun _ => true, fun _ => false, fun _ _ => 0⟩
  timestamp := fun text => if text = "2026-08-14 00:00:00".toList then some (daysOf ⟨2026, 8, 14⟩ * DAY) else none
  uuid := fun _ => none
  email := fun _ => none
  address := fun _ => false
  u32 := fun text => if text = "20".toList then some 20 else if text = "4".toList then some 4 else none
  u64 := fun _ => none
  floatText := fun _ => []
  jsonText := fun _ => []
  order := fun _ => none
  subfilter := fun _ => none

/-- What the connection `serial` carried, as far as it was sent or is at most an hour old. -/
def sentOrRecent : Object :=
  [("connection", .array [.string "serial".toList]),
    ("or", .array [.object [("direction", .string "send".toList)], .object [("max_age", .string "PT1H".toList)]])]

/-- A message sent on the connection `serial`, in the middle of a day. -/
def someMessage : Fields := fun key =>
  if key = "connection" then some ⟨"\"serial\"".toList, .string "serial".toList⟩
  else if key = "direction" then some ⟨"\"send\"".toList, .string "send".toList⟩
  else if key = "timestamp" then some ⟨"\"2026-08-14T12:00:00Z\"".toList, .string "2026-08-14T12:00:00Z".toList⟩
  else none

/-- The connection twice, and either direction. -/
def serialQuery : FilterQuery Json :=
  [.condition "a" "connection" (.string "serial".toList), .condition "b" "connection" (.string "serial".toList),
    .block "c" .or_ [.condition "d" "direction" (.string "receive".toList),
      .block "e" .and_ [.condition "f" "direction" (.string "send".toList), .condition "g" "contains" (.string [])]]]

theorem serial_compiled :
    engineMatches plainReaders (fun _ => []) id .messages someMessage 0 (compileQuery serialQuery) =
      some (allHold (meaning plainReaders (fun _ => []) id .messages someMessage 0) serialQuery) := by
  refine compileQuery_matches plainReaders (fun _ => []) id .messages someMessage 0 serialQuery ?_ (by decide)
  have hconditions : conditionsOf serialQuery =
      [("connection", .string "serial".toList), ("connection", .string "serial".toList),
        ("direction", .string "receive".toList), ("direction", .string "send".toList), ("contains", .string [])] := rfl
  have hconnection : (meaningOf plainReaders (fun _ => []) id .messages someMessage 0 "connection"
      (.string "serial".toList)).isSome = true := by decide
  have hreceive : (meaningOf plainReaders (fun _ => []) id .messages someMessage 0 "direction"
      (.string "receive".toList)).isSome = true := by decide
  have hsend : (meaningOf plainReaders (fun _ => []) id .messages someMessage 0 "direction"
      (.string "send".toList)).isSome = true := by decide
  have hblank : ¬ hasValue (.string []) = true := by decide
  rw [hconditions]
  intro condition hmem hvalue
  simp only [List.mem_cons, List.not_mem_nil, or_false] at hmem
  rcases hmem with rfl | rfl | rfl | rfl | rfl
  · exact ⟨by decide, hconnection⟩
  · exact ⟨by decide, hconnection⟩
  · exact ⟨by decide, hreceive⟩
  · exact ⟨by decide, hsend⟩
  · exact absurd hvalue hblank

end Ceres.Console.Query
