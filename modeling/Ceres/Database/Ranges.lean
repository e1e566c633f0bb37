/-
  File:      Ceres/Database/Ranges.lean
  Subject:   DATES AND DURATIONS IN RANGE (`rust/ceres-database/src/filter.rs`: `parse_duration`,
             `timespan_bounds`, `time_bounds`, `subsample_conditions`, `divide_rounding_half_even`).

  The parser bounds the durations of a filter, but not to what the clock can be moved by: the compiler and
  the matcher compute with them unchecked.

  * `parseDuration`, `applyWindow`, `applySubsample` -- what the parser takes, and `Conditions.Accepted` --
    what it guarantees;
  * `checkedCombined`, `checkedStatement`, `checkedCount`, `checkedDelete` -- the compiler with each
    computation that may leave its range;
  * `Conditions.InRange` -- the durations of a node that stay in range;
  * **`computations_in_range_iff`** -- the statements and the matcher compute in range exactly when every
    node's durations do.
-/
import Ceres.Database.Matcher
import Ceres.Database.Subsample

namespace Ceres.Database

open Ceres.Library
open Ceres.Library.Sql
open Ceres.Data

set_option linter.unusedSectionVars false

/-! ## 1. What the parser takes -/

/-- A duration as the `speedate` crate reads it. -/
structure SpeedateDuration where
  positive : Bool
  day : Nat
  second : Nat
  microsecond : Nat

/-- The suffixes of the second grammar with their microseconds, in the order they are tried. -/
def durationSuffixes : List (Text × Nat) :=
  [("us".toList, 1), ("ms".toList, 1000), (['s'], 1000000), (['m'], 60 * 1000000),
    (['h'], 3600 * 1000000), (['d'], 86400 * 1000000)]

/-- Take the suffix off; a bare number means seconds. -/
def stripDurationSuffix (text : Text) : Text × Nat :=
  match durationSuffixes.find? fun suffix => suffix.1.isSuffixOf text with
  | some suffix => (text.take (text.length - suffix.1.length), suffix.2)
  | none => (text, 1000000)

/-- The floats of the suffix grammar: how a number reads, whether it is finite, whether it is below zero,
    and `(value * scale).round() as i64`. -/
structure Floats (F : Type) where
  parse : Text → Option F
  finite : F → Bool
  negative : F → Bool
  micros : F → Nat → Int

/-- A finite number that is not below zero is cast to an `i64` that is not. -/
def Floats.Casts {F : Type} (floats : Floats F) : Prop :=
  ∀ value scale, floats.finite value = true → floats.negative value = false →
    0 ≤ floats.micros value scale ∧ floats.micros value scale < 2 ^ 63

section Parse

variable {F : Type} (speedate : Text → Option SpeedateDuration) (cleaned : Text → Text)
  (floats : Floats F) (timestamp : Text → Option Int)

/-- Parse a wire duration: the ISO 8601 grammar first, then the suffix grammar over the text without
    blanks in lower case. -/
def parseDuration (text : Text) : Option Int :=
  match speedate text with
  | some duration =>
    if !duration.positive then none
    else some (duration.day * DAY + duration.second * 1000000 + duration.microsecond)
  | none =>
    let (number, scale) := stripDurationSuffix (cleaned text)
    if number.isEmpty then none
    else
      (floats.parse number).bind fun value =>
        if !floats.finite value || floats.negative value then none else some (floats.micros value scale)

/-- A window operator. -/
inductive WindowOp where
  | after
  | before
  | timespan
  | maxAge
  | minAge

/-- A subsampling operator. -/
inductive SubsampleOp where
  | every
  | count
  | select

/-- Refuse a key that appears more than once where the wire takes one value. -/
def setOnce {α : Type} (slot : Option α) (value : α) : Option (Option α) :=
  if slot.isSome then none else some (some value)

/-- Apply one window key to a node. -/
def applyWindow (own : Conditions) (operator : WindowOp) (value : Text) : Option Conditions :=
  match operator with
  | .after =>
    (timestamp value).bind fun after =>
      (setOnce own.after after).map fun slot => { own with after := slot }
  | .before =>
    (timestamp value).bind fun before =>
      (setOnce own.before before).map fun slot => { own with before := slot }
  | .timespan =>
    (parseDuration speedate cleaned floats value).bind fun timespan =>
      if timespan < 1 then none
      else (setOnce own.timespan timespan).map fun slot => { own with timespan := slot }
  | .maxAge =>
    (parseDuration speedate cleaned floats value).bind fun age =>
      (setOnce own.maxAge age).map fun slot => { own with maxAge := slot }
  | .minAge =>
    (parseDuration speedate cleaned floats value).bind fun age =>
      (setOnce own.minAge age).map fun slot => { own with minAge := slot }

/-- Apply one subsampling key to a node; `number` parses a `u64`. -/
def applySubsample (number : Text → Option UInt64) (own : Conditions) (operator : SubsampleOp)
    (value : Text) : Option Conditions :=
  match operator with
  | .every =>
    (parseDuration speedate cleaned floats value).bind fun every =>
      if every < 1 then none
      else (setOnce own.subsampleEvery every).map fun slot => { own with subsampleEvery := slot }
  | .count =>
    ((number value).filter fun count => 1 ≤ count).bind fun count =>
      (setOnce own.subsample count.toNat).map fun slot => { own with subsample := slot }
  | .select =>
    (if value = "first".toList then some SubsampleSelect.first
      else if value = "last".toList then some .last
      else none).bind fun select =>
    (setOnce own.subsampleSelect select).map fun slot => { own with subsampleSelect := slot }

end Parse

/-- The earliest and the latest instant of the parsed years, 0 to 9999, whatever their offset. -/
def PARSED_MIN : Int := daysOf ⟨-1, 1, 1⟩ * DAY

def PARSED_MAX : Int := daysOf ⟨10001, 1, 1⟩ * DAY

/-- What the parser guarantees of a node's instants, durations and count. -/
structure Conditions.Accepted (own : Conditions) : Prop where
  after : ∀ t ∈ own.after, PARSED_MIN ≤ t ∧ t ≤ PARSED_MAX
  before : ∀ t ∈ own.before, PARSED_MIN ≤ t ∧ t ≤ PARSED_MAX
  timespan : ∀ timespan ∈ own.timespan, 1 ≤ timespan
  maxAge : ∀ age ∈ own.maxAge, 0 ≤ age
  minAge : ∀ age ∈ own.minAge, 0 ≤ age
  every : ∀ every ∈ own.subsampleEvery, 1 ≤ every
  count : ∀ count ∈ own.subsample, 1 ≤ count ∧ count < 2 ^ 64

/-! ## 2. The compiler, with what may leave its range -/

/-- A number of the 64-bit signed integers. -/
def i64 (n : Int) : Option Int := if -2 ^ 63 ≤ n ∧ n < 2 ^ 63 then some n else none

/-- `count as i64`: the upper half of the unsigned numbers wraps below zero. -/
def castI64 (count : Nat) : Int := if count < 2 ^ 63 then count else (count : Int) - 2 ^ 64

/-- Integer division rounding half to even, over 64 bits. -/
def checkedDivide (total divisor : Int) : Option Int :=
  (i64 (total / divisor)).bind fun quotient =>
    (i64 (total % divisor * 2)).bind fun doubled =>
      if doubled > divisor ∨ (doubled = divisor ∧ quotient % 2 ≠ 0) then i64 (quotient + 1)
      else some quotient

namespace Conditions

variable (own : Conditions)

/-- The effective start and end of the node's time range. -/
def checkedTimeBounds (now : Int) : Option (Option Int × Option Int) :=
  (own.checkedTimespanBounds now).bind fun span =>
    (ageBound now own.maxAge).bind fun oldest =>
      (ageBound now own.minAge).map fun youngest =>
        let starts := own.after.toList ++ span.1.toList ++ oldest.toList
        let ends := own.before.toList ++ span.2.toList ++ youngest.toList
        (starts.max?, ends.min?)

def checkedWindowConditions (key : String) (now : Int) (dialect : SqlDialect) : Option (List Condition) :=
  let bound (op : Comparison) (t : Int) :=
    Condition.compare op (.column key) (.value (timestampValue t dialect))
  (own.checkedTimespanBounds now).bind fun span =>
    (ageBound now own.maxAge).bind fun oldest =>
      (ageBound now own.minAge).map fun youngest =>
        (own.after.map (bound .ge)).toList ++ (own.before.map (bound .lt)).toList ++
          (span.1.map (bound .ge)).toList ++ (span.2.map (bound .lt)).toList ++
          (oldest.map (bound .gt)).toList ++ (youngest.map (bound .le)).toList

/-- The condition of `subsample_every`. The width has to be a number of microseconds. -/
def checkedEvery (key : String) (now : Int) (start end_ : Option Int) (dialect : SqlDialect) :
    Option (List Condition) :=
  match own.subsampleEvery with
  | none => some []
  | some every =>
    (i64 every).map fun width =>
      [bucketCondition key (start.getD (now / DAY * DAY)) (max width 1) start end_
        (own.subsampleSelect.getD .first) dialect]

/-- The condition of `subsample`. A range too long for its microseconds counts as empty. -/
def checkedCountCondition (key : String) (start end_ : Option Int) (dialect : SqlDialect) :
    Option (List Condition) :=
  match own.subsample, start, end_ with
  | some count, some start, some end_ =>
    (checkedDivide ((i64 (end_ - start)).getD 0) (castI64 (max count 1))).map fun width =>
      [bucketCondition key start (max width 1) (some start) (some end_)
        (own.subsampleSelect.getD .first) dialect]
  | _, _, _ => some []

/-- The subsampling conditions. -/
def checkedSubsampleConditions (key : String) (now : Int) (dialect : SqlDialect) :
    Option (List Condition) :=
  if own.subsampleEvery.isNone ∧ own.subsample.isNone then some []
  else
    (own.checkedTimeBounds now).bind fun bounds =>
      (own.checkedEvery key now bounds.1 bounds.2 dialect).bind fun every =>
        (own.checkedCountCondition key bounds.1 bounds.2 dialect).map fun count => every ++ count

def checkedFamily (dialect : SqlDialect) (now : Int) (field : FilterField) : Option (List Condition) :=
  match field.family with
  | .timestamp =>
    (own.checkedWindowConditions field.key now dialect).bind fun window =>
      (own.checkedSubsampleConditions field.key now dialect).map fun subsample =>
        window ++ subsample ++ own.clockConditions field.key dialect
  | .level => some (own.levelConditions field.key)
  | _ => some []

def checkedFieldConditions (dialect : SqlDialect) (now : Int) (field : FilterField) :
    Option (List Condition) :=
  (own.checkedFamily dialect now field).map fun conditions =>
    ((own.valuesOf field).map (equalityCondition field dialect)).toList ++
      own.operationConditions field dialect ++
      (if field.family = .address then
        (own.address.map fun selector => selector.condition field.key own.root dialect).toList
      else []) ++ conditions

def checkedFields (dialect : SqlDialect) (now : Int) : List FilterField → Option (List Condition)
  | [] => some []
  | field :: fields =>
    (own.checkedFieldConditions dialect now field).bind fun conditions =>
      (checkedFields dialect now fields).map fun rest => conditions ++ rest

/-- This node's conditions. -/
def checkedCompile (schema : Schema) (dialect : SqlDialect) (now : Int) : Option (List Condition) :=
  (own.checkedFields dialect now schema.fields).map fun conditions =>
    (if own.impossible then [.constant false] else []) ++
      own.computed.map (computedCondition dialect) ++ conditions

end Conditions

section Tree

variable (schema : Schema) (dialect : SqlDialect) (now : Int)

mutual

/-- This node's conditions joined with its subfilter groups'. -/
def FilterNode.checkedCombined : FilterNode → Option (List Condition)
  | .node own andChildren orChildren =>
    (own.checkedCompile schema dialect now).bind fun conditions =>
      (checkedAnds andChildren).bind fun ands =>
        (checkedOrs orChildren).map fun terms => joinTerms (conditions ++ ands) terms

def checkedAnds : List FilterNode → Option (List Condition)
  | [] => some []
  | child :: children =>
    child.checkedCombined.bind fun conditions =>
      (checkedAnds children).map fun rest => conditions ++ rest

def checkedOrs : List FilterNode → Option (List Condition)
  | [] => some []
  | child :: children =>
    child.checkedCombined.bind fun conditions =>
      (checkedOrs children).map fun rest => groupTerm conditions :: rest

end

end Tree

/-- The delete, over the rows its conditions select or over the keys its page names. -/
inductive DeleteStatement where
  | inPlace (conditions : List Condition)
  | paged (keys : Select)

namespace FilterCore

variable (filter : FilterCore) (dialect : SqlDialect) (now : Int)

/-- The tree's conditions. -/
def checkedConditions : Option (List Condition) :=
  filter.node.checkedCombined filter.table.schema dialect now

/-- The ordered page of the rows that satisfy some conditions. -/
def pageOf (conditions : List Condition) : Select :=
  filter.page dialect { conditions, order := filter.orderBy, limit := none }

/-- Build the listing statement. -/
def checkedStatement : Option Statement :=
  (filter.checkedConditions dialect now).map fun conditions => .direct (filter.pageOf dialect conditions)

/-- Build the count statement: the rows counted. A limit or offset bounds the count itself. -/
def checkedCount : Option Select :=
  if filter.limit.isNone ∧ filter.offset.isNone then
    (filter.checkedConditions dialect now).map fun conditions => { conditions, order := [], limit := none }
  else (filter.checkedConditions dialect now).map (filter.pageOf dialect)

/-- Build the delete statement. -/
def checkedDelete : Option DeleteStatement :=
  if filter.limit.isNone ∧ filter.offset.isNone then
    (filter.checkedConditions dialect now).map .inPlace
  else (filter.checkedConditions dialect now).map fun conditions => .paged (filter.pageOf dialect conditions)

end FilterCore

/-! ## 3. The durations in range -/

/-- The timespan can be measured from its anchor: behind `after`, else in front of `before`, else in front
    of the clock. -/
def Conditions.SpanInRange (own : Conditions) (now timespan : Int) : Prop :=
  match own.after, own.before with
  | some after, _ => timespan ≤ NAIVE_MAX - after
  | none, some before => timespan ≤ before - NAIVE_MIN
  | none, none => timespan ≤ now - NAIVE_MIN

/-- The durations of a node that stay in range at `now`. The remainder of the range's width by the count
    is doubled over 64 bits. -/
structure Conditions.InRange (own : Conditions) (now : Int) : Prop where
  timespan : ∀ timespan ∈ own.timespan, own.SpanInRange now timespan
  maxAge : ∀ age ∈ own.maxAge, age ≤ now - NAIVE_MIN
  minAge : ∀ age ∈ own.minAge, age ≤ now - NAIVE_MIN
  every : ∀ every ∈ own.subsampleEvery, every < 2 ^ 63
  count : ∀ count ∈ own.subsample, ∀ start ∈ (own.timeBounds now).1, ∀ end_ ∈ (own.timeBounds now).2,
    (end_ - start) % castI64 count < 2 ^ 62

theorem range_numbers : NAIVE_MIN = -8334601228800000000 ∧ NAIVE_MAX = 8210266876799999999 ∧
    PARSED_MIN = -62198755200000000 ∧ PARSED_MAX = 253433923200000000 := by decide

theorem instant_isSome (t : Int) : (instant t).isSome ↔ NAIVE_MIN ≤ t ∧ t ≤ NAIVE_MAX := by
  unfold instant
  split <;> simp_all

theorem instant_eq_some {t u : Int} (h : instant t = some u) : u = t := by
  unfold instant at h
  split at h
  · exact (Option.some.inj h).symm
  · cases h

theorem i64_isSome (n : Int) : (i64 n).isSome ↔ -2 ^ 63 ≤ n ∧ n < 2 ^ 63 := by
  unfold i64
  split <;> simp_all

theorem i64_of_bounds {n : Int} (h : -2 ^ 63 ≤ n ∧ n < 2 ^ 63) : i64 n = some n := if_pos h

section Node

variable {own : Conditions} {now : Int}

theorem ageBound_eq_some {age bound : Option Int} (h : ageBound now age = some bound) :
    bound = age.map (now - ·) := by
  cases age with
  | none => exact (Option.some.inj h).symm
  | some age =>
    obtain ⟨t, ht, rfl⟩ := Option.map_eq_some_iff.mp h
    rw [instant_eq_some ht]
    rfl

theorem ageBound_isSome {age : Option Int} (hage : ∀ a ∈ age, 0 ≤ a)
    (hnow : PARSED_MIN ≤ now ∧ now ≤ PARSED_MAX) :
    (ageBound now age).isSome ↔ ∀ a ∈ age, a ≤ now - NAIVE_MIN := by
  cases age with
  | none => simp [ageBound]
  | some age =>
    have hage := hage age rfl
    obtain ⟨h₁, h₂, h₃, h₄⟩ := range_numbers
    rw [ageBound, Option.isSome_map, instant_isSome]
    simp only [Option.mem_some_iff, forall_eq']
    omega

theorem checkedTimespanBounds_eq_some {bounds : Option Int × Option Int}
    (h : own.checkedTimespanBounds now = some bounds) : bounds = own.timespanBounds now := by
  cases htimespan : own.timespan with
  | none =>
    rw [checkedTimespanBounds_none htimespan] at h
    exact (Option.some.inj h).symm
  | some timespan =>
    rw [checkedTimespanBounds_some htimespan] at h
    obtain ⟨t, -, rfl⟩ := Option.map_eq_some_iff.mp h
    rfl

theorem spanBound_inRange_iff (haccepted : own.Accepted) (hnow : PARSED_MIN ≤ now ∧ now ≤ PARSED_MAX)
    {timespan : Int} (hpositive : 1 ≤ timespan) :
    NAIVE_MIN ≤ own.spanBound now timespan ∧ own.spanBound now timespan ≤ NAIVE_MAX ↔
      own.SpanInRange now timespan := by
  obtain ⟨h₁, h₂, h₃, h₄⟩ := range_numbers
  unfold Conditions.spanBound Conditions.SpanInRange
  cases hafter : own.after with
  | some after =>
    have hbounds := haccepted.after after hafter
    show NAIVE_MIN ≤ after + timespan ∧ after + timespan ≤ NAIVE_MAX ↔ timespan ≤ NAIVE_MAX - after
    omega
  | none =>
    cases hbefore : own.before with
    | some before =>
      have hbounds := haccepted.before before hbefore
      show NAIVE_MIN ≤ before - timespan ∧ before - timespan ≤ NAIVE_MAX ↔ timespan ≤ before - NAIVE_MIN
      omega
    | none =>
      show NAIVE_MIN ≤ now - timespan ∧ now - timespan ≤ NAIVE_MAX ↔ timespan ≤ now - NAIVE_MIN
      omega

theorem checkedTimespanBounds_isSome (haccepted : own.Accepted) (hnow : PARSED_MIN ≤ now ∧ now ≤ PARSED_MAX) :
    (own.checkedTimespanBounds now).isSome ↔ ∀ timespan ∈ own.timespan, own.SpanInRange now timespan := by
  cases htimespan : own.timespan with
  | none =>
    rw [checkedTimespanBounds_none htimespan]
    simp
  | some timespan =>
    have hpositive := haccepted.timespan timespan htimespan
    rw [checkedTimespanBounds_some htimespan, Option.isSome_map, instant_isSome,
      spanBound_inRange_iff haccepted hnow hpositive]
    simp

/-- The instants a node computes from its window. -/
structure Conditions.WindowInRange (own : Conditions) (now : Int) : Prop where
  timespan : ∀ timespan ∈ own.timespan, own.SpanInRange now timespan
  maxAge : ∀ age ∈ own.maxAge, age ≤ now - NAIVE_MIN
  minAge : ∀ age ∈ own.minAge, age ≤ now - NAIVE_MIN

theorem isSome_bind_map {α β γ δ : Type} {a : Option α} {b : Option β} {c : Option γ} {f : α → β → γ → δ} :
    (a.bind fun x => b.bind fun y => c.map fun z => f x y z).isSome ↔ a.isSome ∧ b.isSome ∧ c.isSome := by
  cases a <;> cases b <;> cases c <;> simp

theorem windowInRange_iff (haccepted : own.Accepted) (hnow : PARSED_MIN ≤ now ∧ now ≤ PARSED_MAX) :
    own.WindowInRange now ↔ (own.checkedTimespanBounds now).isSome ∧ (ageBound now own.maxAge).isSome ∧
      (ageBound now own.minAge).isSome := by
  rw [checkedTimespanBounds_isSome haccepted hnow, ageBound_isSome haccepted.maxAge hnow,
    ageBound_isSome haccepted.minAge hnow]
  exact ⟨fun h => ⟨h.timespan, h.maxAge, h.minAge⟩, fun h => ⟨h.1, h.2.1, h.2.2⟩⟩

theorem checkedTimeBounds_isSome (haccepted : own.Accepted) (hnow : PARSED_MIN ≤ now ∧ now ≤ PARSED_MAX) :
    (own.checkedTimeBounds now).isSome ↔ own.WindowInRange now := by
  rw [windowInRange_iff haccepted hnow]
  exact isSome_bind_map

theorem checkedWindowConditions_isSome (haccepted : own.Accepted)
    (hnow : PARSED_MIN ≤ now ∧ now ≤ PARSED_MAX) (key : String) (dialect : SqlDialect) :
    (own.checkedWindowConditions key now dialect).isSome ↔ own.WindowInRange now := by
  rw [windowInRange_iff haccepted hnow]
  exact isSome_bind_map

/-- **The bounds that are computed are the node's time bounds.** -/
theorem checkedTimeBounds_eq_some {bounds : Option Int × Option Int}
    (h : own.checkedTimeBounds now = some bounds) : bounds = own.timeBounds now := by
  obtain ⟨span, hspan, h⟩ := Option.bind_eq_some_iff.mp h
  obtain ⟨oldest, holdest, h⟩ := Option.bind_eq_some_iff.mp h
  obtain ⟨youngest, hyoungest, rfl⟩ := Option.map_eq_some_iff.mp h
  rw [checkedTimespanBounds_eq_some hspan, ageBound_eq_some holdest, ageBound_eq_some hyoungest]
  rfl

theorem timespanBounds_bounds (haccepted : own.Accepted) (hnow : PARSED_MIN ≤ now ∧ now ≤ PARSED_MAX)
    (h : ∀ timespan ∈ own.timespan, own.SpanInRange now timespan) :
    (∀ start ∈ (own.timespanBounds now).1, NAIVE_MIN ≤ start ∧ start ≤ PARSED_MAX) ∧
      ∀ end_ ∈ (own.timespanBounds now).2, NAIVE_MIN ≤ end_ ∧ end_ ≤ NAIVE_MAX ∧
        (own.after = none → end_ ≤ PARSED_MAX) := by
  obtain ⟨h₁, h₂, h₃, h₄⟩ := range_numbers
  unfold Conditions.SpanInRange at h
  unfold Conditions.timespanBounds
  cases htimespan : own.timespan with
  | none => simp
  | some timespan =>
    have hpositive := haccepted.timespan timespan htimespan
    have h := h timespan htimespan
    cases hafter : own.after with
    | some after =>
      have hbounds := haccepted.after after hafter
      rw [hafter] at h
      have h : timespan ≤ NAIVE_MAX - after := h
      refine ⟨by simp, fun end_ hend => ?_⟩
      have hend : after + timespan = end_ := Option.some.inj hend
      exact ⟨by omega, by omega, by simp⟩
    | none =>
      cases hbefore : own.before with
      | some before =>
        have hbounds := haccepted.before before hbefore
        rw [hafter, hbefore] at h
        have h : timespan ≤ before - NAIVE_MIN := h
        refine ⟨fun start hstart => ?_, by simp⟩
        have hstart : before - timespan = start := Option.some.inj hstart
        omega
      | none =>
        rw [hafter, hbefore] at h
        have h : timespan ≤ now - NAIVE_MIN := h
        refine ⟨fun start hstart => ?_, fun end_ hend => ?_⟩
        · have hstart : now - timespan = start := Option.some.inj hstart
          omega
        · have hend : now = end_ := Option.some.inj hend
          exact ⟨by omega, by omega, fun _ => by omega⟩

/-- The width of a node's range in microseconds, with room to spare in 64 bits. -/
theorem timeBounds_width (haccepted : own.Accepted) (hnow : PARSED_MIN ≤ now ∧ now ≤ PARSED_MAX)
    (h : own.WindowInRange now) {start end_ : Int} (hstart : start ∈ (own.timeBounds now).1)
    (hend : end_ ∈ (own.timeBounds now).2) :
    -9000000000000000000 ≤ end_ - start ∧ end_ - start ≤ 9000000000000000000 := by
  obtain ⟨h₁, h₂, h₃, h₄⟩ := range_numbers
  obtain ⟨hspanStart, hspanEnd⟩ := timespanBounds_bounds haccepted hnow h.timespan
  have hstart : (own.after.toList ++ (own.timespanBounds now).1.toList ++
      (own.maxAge.map (now - ·)).toList).max? = some start := hstart
  have hend : (own.before.toList ++ (own.timespanBounds now).2.toList ++
      (own.minAge.map (now - ·)).toList).min? = some end_ := hend
  obtain ⟨hstart, hgreatest⟩ := List.max?_eq_some_iff.mp hstart
  obtain ⟨hend, -⟩ := List.min?_eq_some_iff.mp hend
  simp only [List.mem_append, Option.mem_toList, Option.map_eq_some_iff] at hstart hend
  -- a start is never late, since each is parsed or lies before one that is
  have hstarts : NAIVE_MIN ≤ start ∧ start ≤ PARSED_MAX := by
    rcases hstart with (hstart | hstart) | ⟨age, hage, rfl⟩
    · have := haccepted.after start hstart
      omega
    · exact hspanStart start hstart
    · have := haccepted.maxAge age hage
      have := h.maxAge age hage
      omega
  have hends : NAIVE_MIN ≤ end_ ∧ end_ ≤ NAIVE_MAX ∧ (own.after = none → end_ ≤ PARSED_MAX) := by
    rcases hend with (hend | hend) | ⟨age, hage, rfl⟩
    · have := haccepted.before end_ hend
      exact ⟨by omega, by omega, fun _ => by omega⟩
    · exact hspanEnd end_ hend
    · have := haccepted.minAge age hage
      have := h.minAge age hage
      exact ⟨by omega, by omega, fun _ => by omega⟩
  -- a late end is anchored at `after`, which is then a start
  cases hafter : own.after with
  | none =>
    have := hends.2.2 hafter
    omega
  | some after =>
    have hfirst : after ≤ start := hgreatest after (by simp [hafter])
    have := haccepted.after after hafter
    omega

theorem castI64_bounds {count : Nat} (hpositive : 1 ≤ count) (hcount : count < 2 ^ 64) :
    castI64 count ≠ 0 ∧ -2 ^ 63 ≤ castI64 count ∧ castI64 count < 2 ^ 63 := by
  unfold castI64
  split <;> omega

/-- The division stays in range exactly when the remainder can be doubled. -/
theorem checkedDivide_isSome {total divisor : Int}
    (htotal : -9000000000000000000 ≤ total ∧ total ≤ 9000000000000000000) (hdivisor : divisor ≠ 0) :
    (checkedDivide total divisor).isSome ↔ total % divisor < 2 ^ 62 := by
  have hquotient : (total / divisor).natAbs ≤ total.natAbs := Int.natAbs_ediv_le_natAbs total divisor
  have hremainder : 0 ≤ total % divisor := Int.emod_nonneg total hdivisor
  rw [checkedDivide, i64_of_bounds (by omega), Option.bind_some]
  by_cases hdouble : total % divisor < 2 ^ 62
  · refine iff_of_true ?_ hdouble
    rw [i64_of_bounds (by omega), Option.bind_some]
    split
    · exact (i64_isSome _).mpr (by omega)
    · rfl
  · refine iff_of_false (fun h => ?_) hdouble
    have hnone : i64 (total % divisor * 2) = none := if_neg (by omega)
    rw [hnone] at h
    cases h

theorem checkedEvery_isSome (haccepted : own.Accepted) (key : String) (start end_ : Option Int)
    (dialect : SqlDialect) :
    (own.checkedEvery key now start end_ dialect).isSome ↔ ∀ every ∈ own.subsampleEvery, every < 2 ^ 63 := by
  unfold Conditions.checkedEvery
  cases hevery : own.subsampleEvery with
  | none => simp
  | some every =>
    have := haccepted.every every hevery
    rw [Option.isSome_map, i64_isSome]
    simp only [Option.mem_some_iff, forall_eq']
    omega

theorem checkedCountCondition_isSome (haccepted : own.Accepted)
    (hnow : PARSED_MIN ≤ now ∧ now ≤ PARSED_MAX) (h : own.WindowInRange now) (key : String)
    (dialect : SqlDialect) :
    (own.checkedCountCondition key (own.timeBounds now).1 (own.timeBounds now).2 dialect).isSome ↔
      ∀ count ∈ own.subsample, ∀ start ∈ (own.timeBounds now).1, ∀ end_ ∈ (own.timeBounds now).2,
        (end_ - start) % castI64 count < 2 ^ 62 := by
  unfold Conditions.checkedCountCondition
  cases hcount : own.subsample with
  | none => simp
  | some count =>
    cases hstart : (own.timeBounds now).1 with
    | none => simp
    | some start =>
      cases hend : (own.timeBounds now).2 with
      | none => simp
      | some end_ =>
        obtain ⟨hpositive, hlarge⟩ := haccepted.count count hcount
        have hwidth := timeBounds_width haccepted hnow h hstart hend
        have hmax : max count 1 = count := max_eq_left hpositive
        show (Option.map _ (checkedDivide ((i64 (end_ - start)).getD 0) (castI64 (max count 1)))).isSome ↔ _
        rw [hmax, i64_of_bounds (by omega), Option.getD_some, Option.isSome_map,
          checkedDivide_isSome hwidth (castI64_bounds hpositive hlarge).1]
        simp

/-- **A node's computations stay in range exactly when its durations do.** -/
theorem node_in_range_iff (haccepted : own.Accepted) (hnow : PARSED_MIN ≤ now ∧ now ≤ PARSED_MAX)
    (key : String) (dialect : SqlDialect) : (own.checkedWindowConditions key now dialect).isSome ∧
        (own.checkedSubsampleConditions key now dialect).isSome ↔ own.InRange now := by
  have hsplit : own.InRange now ↔ own.WindowInRange now ∧
      (∀ every ∈ own.subsampleEvery, every < 2 ^ 63) ∧
      ∀ count ∈ own.subsample, ∀ start ∈ (own.timeBounds now).1, ∀ end_ ∈ (own.timeBounds now).2,
        (end_ - start) % castI64 count < 2 ^ 62 :=
    ⟨fun h => ⟨⟨h.timespan, h.maxAge, h.minAge⟩, h.every, h.count⟩,
      fun h => ⟨h.1.timespan, h.1.maxAge, h.1.minAge, h.2.1, h.2.2⟩⟩
  rw [hsplit, checkedWindowConditions_isSome haccepted hnow]
  refine and_congr_right fun hwindow => ?_
  unfold Conditions.checkedSubsampleConditions
  split
  case isTrue hnone =>
    refine iff_of_true rfl ⟨?_, ?_⟩
    · simp [Option.isNone_iff_eq_none.mp hnone.1]
    · simp [Option.isNone_iff_eq_none.mp hnone.2]
  case isFalse =>
    obtain ⟨bounds, hbounds⟩ := Option.isSome_iff_exists.mp ((checkedTimeBounds_isSome haccepted hnow).mpr hwindow)
    have hevery := @checkedEvery_isSome own now haccepted key bounds.1 bounds.2 dialect
    have hcount := checkedCountCondition_isSome haccepted hnow hwindow key dialect
    rw [← checkedTimeBounds_eq_some hbounds] at hcount
    rw [hbounds, Option.bind_some, ← checkedTimeBounds_eq_some hbounds, ← hevery, ← hcount]
    cases own.checkedEvery key now bounds.1 bounds.2 dialect <;>
      cases own.checkedCountCondition key bounds.1 bounds.2 dialect <;> simp

end Node

/-! ## 4. What the parser sets is accepted -/

section Parse

variable {F : Type} {speedate : Text → Option SpeedateDuration} {cleaned : Text → Text}
  {floats : Floats F} {timestamp : Text → Option Int} {number : Text → Option UInt64}
  {own parsed : Conditions} {value : Text}

theorem parseDuration_nonneg (hfloats : floats.Casts) {duration : Int}
    (h : parseDuration speedate cleaned floats value = some duration) : 0 ≤ duration := by
  unfold parseDuration at h
  cases hspeedate : speedate value with
  | some parts =>
    rw [hspeedate] at h
    simp only [Option.ite_none_left_eq_some, Option.some.injEq] at h
    obtain ⟨-, rfl⟩ := h
    unfold DAY
    omega
  | none =>
    rw [hspeedate] at h
    simp only [Option.ite_none_left_eq_some] at h
    obtain ⟨f, -, hf⟩ := Option.bind_eq_some_iff.mp h.2
    simp only [Option.ite_none_left_eq_some, Option.some.injEq] at hf
    obtain ⟨hsign, rfl⟩ := hf
    have hsign : floats.finite f = true ∧ floats.negative f = false := by simpa using hsign
    exact (hfloats f _ hsign.1 hsign.2).1

theorem setOnce_eq_some {α : Type} {slot set : Option α} {value : α}
    (h : setOnce slot value = some set) : set = some value := by
  unfold setOnce at h
  split at h
  · cases h
  · exact (Option.some.inj h).symm

theorem accepted_default : ({} : Conditions).Accepted :=
  ⟨by simp, by simp, by simp, by simp, by simp, by simp, by simp⟩

/-- **A window key leaves an accepted node accepted.** -/
theorem accepted_applyWindow (hfloats : floats.Casts)
    (htimestamp : ∀ text t, timestamp text = some t → PARSED_MIN ≤ t ∧ t ≤ PARSED_MAX)
    (haccepted : own.Accepted) {operator : WindowOp}
    (h : applyWindow speedate cleaned floats timestamp own operator value = some parsed) : parsed.Accepted := by
  cases operator with
  | after =>
    obtain ⟨t, ht, h⟩ := Option.bind_eq_some_iff.mp h
    obtain ⟨slot, hslot, rfl⟩ := Option.map_eq_some_iff.mp h
    exact { haccepted with after := by simpa [setOnce_eq_some hslot] using htimestamp value t ht }
  | before =>
    obtain ⟨t, ht, h⟩ := Option.bind_eq_some_iff.mp h
    obtain ⟨slot, hslot, rfl⟩ := Option.map_eq_some_iff.mp h
    exact { haccepted with before := by simpa [setOnce_eq_some hslot] using htimestamp value t ht }
  | timespan =>
    obtain ⟨timespan, -, h⟩ := Option.bind_eq_some_iff.mp h
    by_cases hsmall : timespan < 1
    · simp [hsmall] at h
    · rw [if_neg hsmall] at h
      obtain ⟨slot, hslot, rfl⟩ := Option.map_eq_some_iff.mp h
      exact { haccepted with timespan := by simpa [setOnce_eq_some hslot] using not_lt.mp hsmall }
  | maxAge =>
    obtain ⟨age, hage, h⟩ := Option.bind_eq_some_iff.mp h
    obtain ⟨slot, hslot, rfl⟩ := Option.map_eq_some_iff.mp h
    exact { haccepted with
      maxAge := by simpa [setOnce_eq_some hslot] using parseDuration_nonneg hfloats hage }
  | minAge =>
    obtain ⟨age, hage, h⟩ := Option.bind_eq_some_iff.mp h
    obtain ⟨slot, hslot, rfl⟩ := Option.map_eq_some_iff.mp h
    exact { haccepted with
      minAge := by simpa [setOnce_eq_some hslot] using parseDuration_nonneg hfloats hage }

/-- **A subsampling key leaves an accepted node accepted.** -/
theorem accepted_applySubsample (haccepted : own.Accepted) {operator : SubsampleOp}
    (h : applySubsample speedate cleaned floats number own operator value = some parsed) : parsed.Accepted := by
  cases operator with
  | every =>
    obtain ⟨every, -, h⟩ := Option.bind_eq_some_iff.mp h
    by_cases hsmall : every < 1
    · simp [hsmall] at h
    · rw [if_neg hsmall] at h
      obtain ⟨slot, hslot, rfl⟩ := Option.map_eq_some_iff.mp h
      exact { haccepted with every := by simpa [setOnce_eq_some hslot] using not_lt.mp hsmall }
  | count =>
    obtain ⟨count, hcount, h⟩ := Option.bind_eq_some_iff.mp h
    obtain ⟨slot, hslot, rfl⟩ := Option.map_eq_some_iff.mp h
    obtain ⟨-, hpositive⟩ := Option.filter_eq_some_iff.mp hcount
    have hpositive : 1 ≤ count.toNat := UInt64.le_iff_toNat_le.mp (of_decide_eq_true hpositive)
    exact { haccepted with
      count := by simpa [setOnce_eq_some hslot] using ⟨hpositive, count.toNat_lt⟩ }
  | select =>
    obtain ⟨select, -, h⟩ := Option.bind_eq_some_iff.mp h
    obtain ⟨slot, -, rfl⟩ := Option.map_eq_some_iff.mp h
    exact { haccepted with }

end Parse

/-! ## 5. A tree -/

section Compile

variable {own : Conditions} {schema : Schema} {dialect : SqlDialect} {now : Int}

theorem checkedFieldConditions_isSome (haccepted : own.Accepted)
    (hnow : PARSED_MIN ≤ now ∧ now ≤ PARSED_MAX) (field : FilterField) :
    (own.checkedFieldConditions dialect now field).isSome ↔ (field.family = .timestamp → own.InRange now) := by
  rw [Conditions.checkedFieldConditions, Option.isSome_map]
  unfold Conditions.checkedFamily
  cases hfamily : field.family with
  | timestamp =>
    have hnode := node_in_range_iff haccepted hnow field.key dialect
    rw [← hnode]
    cases own.checkedWindowConditions field.key now dialect <;>
      cases own.checkedSubsampleConditions field.key now dialect <;> simp
  | _ => simp

theorem checkedFields_isSome (haccepted : own.Accepted) (hnow : PARSED_MIN ≤ now ∧ now ≤ PARSED_MAX) :
    ∀ fields : List FilterField, (own.checkedFields dialect now fields).isSome ↔
      ∀ field ∈ fields, field.family = .timestamp → own.InRange now
  | [] => by simp [Conditions.checkedFields]
  | field :: fields => by
      have hfield := @checkedFieldConditions_isSome own dialect now haccepted hnow field
      rw [List.forall_mem_cons, ← hfield, ← checkedFields_isSome haccepted hnow fields,
        Conditions.checkedFields]
      cases own.checkedFieldConditions dialect now field <;> simp

theorem checkedCompile_isSome (hrecord : ∃ field ∈ schema.fields, field.family = .timestamp)
    (haccepted : own.Accepted) (hnow : PARSED_MIN ≤ now ∧ now ≤ PARSED_MAX) :
    (own.checkedCompile schema dialect now).isSome ↔ own.InRange now := by
  rw [Conditions.checkedCompile, Option.isSome_map, checkedFields_isSome haccepted hnow]
  obtain ⟨field, hfield, hfamily⟩ := hrecord
  exact ⟨fun h => h field hfield hfamily, fun h _ _ _ => h⟩

theorem checkedAnds_isSome : ∀ {children : List FilterNode}, (checkedAnds schema dialect now children).isSome ↔
      ∀ child ∈ children, (child.checkedCombined schema dialect now).isSome
  | [] => by simp [checkedAnds]
  | child :: children => by
      rw [List.forall_mem_cons, ← checkedAnds_isSome, checkedAnds]
      cases child.checkedCombined schema dialect now <;> simp

theorem checkedOrs_isSome : ∀ {children : List FilterNode}, (checkedOrs schema dialect now children).isSome ↔
      ∀ child ∈ children, (child.checkedCombined schema dialect now).isSome
  | [] => by simp [checkedOrs]
  | child :: children => by
      rw [List.forall_mem_cons, ← checkedOrs_isSome, checkedOrs]
      cases child.checkedCombined schema dialect now <;> simp

/-- **The compiler computes in range exactly when every node's durations are.** -/
theorem checkedCombined_isSome (hrecord : ∃ field ∈ schema.fields, field.family = .timestamp)
    (hnow : PARSED_MIN ≤ now ∧ now ≤ PARSED_MAX) {node : FilterNode} (haccepted : node.All Conditions.Accepted) :
    (node.checkedCombined schema dialect now).isSome ↔ node.All (Conditions.InRange · now) := by
  induction haccepted with
  | node own andChildren orChildren hown _ _ ihands ihors =>
    rw [all_node_iff, ← @checkedCompile_isSome own schema dialect now hrecord hown hnow,
      ← forall₂_congr ihands, ← forall₂_congr ihors, ← checkedAnds_isSome, ← checkedOrs_isSome]
    exact isSome_bind_map

end Compile

/-! ## 6. The matcher -/

theorem isSome_allM {α : Type} {p : α → Option Bool} : ∀ {items : List α},
    (∀ item ∈ items, (p item).isSome) → (items.allM p).isSome
  | [], _ => rfl
  | item :: items, h => by
      obtain ⟨hitem, hitems⟩ := List.forall_mem_cons.mp h
      obtain ⟨held, hheld⟩ := Option.isSome_iff_exists.mp hitem
      rw [List.allM, hheld]
      cases held with
      | false => rfl
      | true => exact isSome_allM hitems

theorem isSome_bind {α β : Type} {a : Option α} {f : α → Option β} (ha : a.isSome)
    (hf : ∀ x, (f x).isSome) : (a.bind f).isSome := by
  obtain ⟨x, rfl⟩ := Option.isSome_iff_exists.mp ha
  exact hf x

theorem isSome_ite {α : Type} {c : Bool} {a b : Option α} (ha : a.isSome) (hb : b.isSome) :
    (if c then a else b).isSome := by
  cases c
  · exact hb
  · exact ha

section Matcher

variable {own : Conditions} {now : Int}

theorem timestampMatches_isSome (hspan : (own.checkedTimespanBounds now).isSome)
    (holdest : (ageBound now own.maxAge).isSome) (hyoungest : (ageBound now own.minAge).isSome)
    (stamp : Int) : (own.timestampMatches stamp now).isSome := by
  unfold Conditions.timestampMatches
  refine isSome_ite rfl (isSome_ite rfl (isSome_bind hspan fun span => ?_))
  refine isSome_ite rfl (isSome_ite rfl (isSome_bind holdest fun oldest => ?_))
  exact isSome_ite rfl (by rw [Option.isSome_map]; exact hyoungest)

variable (jsonText : Json → Text) (lower : Text → Text) (schema : Schema) (fields : Fields)

theorem fieldMatches_isSome (h : ∀ stamp, (own.timestampMatches stamp now).isSome) (field : FilterField) :
    (own.fieldMatches jsonText lower fields now field).isSome := by
  unfold Conditions.fieldMatches
  refine isSome_ite rfl (isSome_ite rfl (isSome_ite rfl ?_))
  cases field.family with
  | timestamp =>
    show Option.isSome (match recordTimestamp _ with
      | none => _
      | some stamp => _)
    cases recordTimestamp ((fields field.key).bind RawValue.string) with
    | none => rfl
    | some stamp => exact h stamp
  | _ => rfl

/-- **The matcher answers about a node when it answers about every timestamp.** -/
theorem matchesOwn_isSome (h : ∀ stamp, (own.timestampMatches stamp now).isSome) :
    (own.matchesOwn jsonText lower schema fields now).isSome := by
  unfold Conditions.matchesOwn
  exact isSome_ite rfl (isSome_ite rfl (isSome_allM fun field _ =>
    fieldMatches_isSome jsonText lower fields h field))

theorem matchesOwn_of_inRange (hnow : PARSED_MIN ≤ now ∧ now ≤ PARSED_MAX) (haccepted : own.Accepted)
    (h : own.InRange now) : (own.matchesOwn jsonText lower schema fields now).isSome := by
  have hspan := (checkedTimespanBounds_isSome haccepted hnow).mpr h.timespan
  have holdest := (ageBound_isSome haccepted.maxAge hnow).mpr h.maxAge
  have hyoungest := (ageBound_isSome haccepted.minAge hnow).mpr h.minAge
  exact matchesOwn_isSome jsonText lower schema fields (timestampMatches_isSome hspan holdest hyoungest)

end Matcher

/-! ## 7. A filter -/

/-- The statements of a filter and the matcher's answer about any record are computed in range. -/
def FilterCore.Computes (filter : FilterCore) (now : Int) : Prop :=
  (∀ dialect, (filter.checkedStatement dialect now).isSome ∧ (filter.checkedCount dialect now).isSome ∧
      (filter.checkedDelete dialect now).isSome) ∧
    ∀ (jsonText : Json → Text) (lower : Text → Text) (fields : Fields),
      (filter.node.matches jsonText lower filter.table.schema fields now).isSome

/-- **A filter on a record table computes in range exactly when the durations of all its nodes are.** -/
theorem computations_in_range_iff {filter : FilterCore} {now : Int}
    (hrecord : timestampField ∈ filter.table.schema.fields)
    (haccepted : filter.node.All Conditions.Accepted)
    (hnow : daysOf ⟨1, 1, 1⟩ * DAY ≤ now ∧ now < daysOf ⟨10000, 1, 1⟩ * DAY) :
    filter.Computes now ↔ filter.node.All (Conditions.InRange · now) := by
  have hparsed : PARSED_MIN ≤ now ∧ now ≤ PARSED_MAX := by
    have hfirst : PARSED_MIN ≤ daysOf ⟨1, 1, 1⟩ * DAY := by decide
    have hlast : daysOf ⟨10000, 1, 1⟩ * DAY ≤ PARSED_MAX := by decide
    exact ⟨hfirst.trans hnow.1, (hnow.2.trans_le hlast).le⟩
  have hcombined : ∀ dialect, (filter.checkedConditions dialect now).isSome ↔
      filter.node.All (Conditions.InRange · now) := fun dialect =>
    checkedCombined_isSome ⟨timestampField, hrecord, rfl⟩ hparsed haccepted
  constructor
  · intro h
    have hstatement := (h.1 .sqliteText).1
    rw [FilterCore.checkedStatement, Option.isSome_map] at hstatement
    exact (hcombined .sqliteText).mp hstatement
  · intro h
    refine ⟨fun dialect => ?_, fun jsonText lower fields =>
      matches_isSome jsonText lower filter.table.schema fields now (haccepted.imp₂ h fun own =>
        matchesOwn_of_inRange jsonText lower filter.table.schema fields hparsed)⟩
    have hconditions := (hcombined dialect).mpr h
    refine ⟨?_, ?_, ?_⟩
    · rw [FilterCore.checkedStatement, Option.isSome_map]
      exact hconditions
    · unfold FilterCore.checkedCount
      split <;> rw [Option.isSome_map] <;> exact hconditions
    · unfold FilterCore.checkedDelete
      split <;> rw [Option.isSome_map] <;> exact hconditions

/-- The logs of at most an age. -/
def aged (age : Int) : FilterCore where
  table := .logs
  node := .node { maxAge := some age } [] []
  order := []
  limit := none
  offset := none
  wellFormed := .node _ _ _ ⟨by simp, by simp, by simp, by simp, by simp⟩ (by simp) (by simp)

theorem aged_accepted {age : Int} (hage : 0 ≤ age) : (aged age).node.All Conditions.Accepted :=
  .node _ _ _ ⟨by simp, by simp, by simp, by simpa using hage, by simp, by simp, by simp⟩ (by simp) (by simp)

/-- `max_age=P999999999D` is parsed, and moves the clock of the year 2026 out of range. -/
theorem long_age_out_of_range :
    (∀ (F : Type) (cleaned : Text → Text) (floats : Floats F) (timestamp : Text → Option Int),
      applyWindow (fun _ => some ⟨true, 999999999, 0, 0⟩) cleaned floats timestamp {} .maxAge
        "P999999999D".toList = some (aged (999999999 * DAY)).node.own) ∧
    (aged (999999999 * DAY)).node.All Conditions.Accepted ∧
    (daysOf ⟨1, 1, 1⟩ * DAY ≤ 1767225600000000 ∧ 1767225600000000 < daysOf ⟨10000, 1, 1⟩ * DAY) ∧
    ¬ (aged (999999999 * DAY)).Computes 1767225600000000 := by
  have haccepted : (aged (999999999 * DAY)).node.All Conditions.Accepted := aged_accepted (by decide)
  refine ⟨fun F cleaned floats timestamp => by rfl, haccepted, by decide, fun h => ?_⟩
  have hstatement := (h.1 .sqliteText).1
  rw [FilterCore.checkedStatement, Option.isSome_map] at hstatement
  have hrange := (checkedCombined_isSome ⟨timestampField, by decide, rfl⟩ (by decide) haccepted).mp
    hstatement
  exact absurd ((all_node_iff.mp hrange).1.maxAge _ rfl) (by decide)

/-- The logs of the last hour, at the same clock. -/
theorem last_hour_computes : (aged 3600000000).Computes 1767225600000000 := by
  refine (@computations_in_range_iff (aged 3600000000) 1767225600000000 (by decide)
    (aged_accepted (by decide)) (by decide)).mpr (.node _ _ _ ?_ (by simp) (by simp))
  exact ⟨by simp, by simp only [Option.mem_some_iff, forall_eq']; decide, by simp, by simp, by simp⟩

end Ceres.Database
