/-
  File:      Ceres/Database/Filter.lean
  Subject:   THE FILTER COMPILER (`rust/ceres-database/src/filter.rs`).

  A filter is a tree: each node has conditions of its own, `and` children that hold together with it and
  `or` children that match on their own. The compiler turns a node into a list of SQL conditions, which
  a statement joins with `AND`.

  * `Conditions`, `FilterNode`, `FilterCore` -- the parsed filter;
  * `windowConditions`, `clockConditions`, `subsampleConditions`, `operationConditions` -- one family of
    conditions each; `Conditions.compile` -- the conditions of one node, in field order;
  * `FilterNode.combined` -- the conditions of a tree, and **`combined_true`** -- what they select, in
    terms of the node's own conditions and of its children.
-/
import Ceres.Database.Cells

namespace Ceres.Database

open Ceres.Library
open Ceres.Library.Sql

/-! ## 1. The parsed filter -/

/-- The values one field's equality holds, in the family's typed form. -/
inductive Values where
  | uuids (ids : List Uuid)
  | texts (texts : List Text)
  | stamps (stamps : List Int)
  | bytes (patterns : List (List UInt8))
  | boolean (wanted : Bool)
  deriving DecidableEq, Repr

structure OperationFilter where
  field : FilterField
  kind : OperationKind
  values : Values
  deriving DecidableEq, Repr

structure OrderTerm where
  field : FilterField
  ascending : Bool
  deriving DecidableEq, Repr

/-- Which record each subsample bucket keeps. -/
inductive SubsampleSelect where
  | first
  | last
  deriving DecidableEq, Repr

/-- The conditions of one node. Instants and durations are microseconds. -/
structure Conditions where
  equalities : List (String × Values) := []
  operations : List OperationFilter := []
  address : Option AddressSelector := none
  root : Option Text := none
  after : Option Int := none
  before : Option Int := none
  timespan : Option Int := none
  maxAge : Option Int := none
  minAge : Option Int := none
  subsampleEvery : Option Int := none
  subsample : Option Nat := none
  subsampleSelect : Option SubsampleSelect := none
  afterHour : Option Nat := none
  beforeHour : Option Nat := none
  afterMinute : Option Nat := none
  beforeMinute : Option Nat := none
  minLevel : Option Nat := none
  maxLevel : Option Nat := none
  computed : List (Computed × Bool) := []
  /-- An explicitly empty value list matches nothing. -/
  impossible : Bool := false

/-- One node of the filter tree. -/
inductive FilterNode where
  | node (own : Conditions) (andChildren orChildren : List FilterNode)

/-- Whether a field of the family can hold the values: of its own type, and at least one. -/
def Values.fits : FieldFamily → Values → Bool
  | .uuid, .uuids ids => !ids.isEmpty
  | .timestamp, .stamps instants => !instants.isEmpty
  | .bytes, .bytes patterns => !patterns.isEmpty
  | .boolean, .boolean _ => true
  | .text, .texts wanted | .email, .texts wanted | .values _, .texts wanted | .level, .texts wanted
  | .jsonValue, .texts wanted | .plainAddress, .texts wanted => !wanted.isEmpty
  | _, _ => false

/-- Whether an operation on a field of the family can hold the patterns. -/
def Values.fitsOperation : FieldFamily → Values → Bool
  | .bytes, .bytes patterns => !patterns.isEmpty
  | .text, .texts patterns | .email, .texts patterns | .json, .texts patterns => !patterns.isEmpty
  | _, _ => false

/-- What parsing a node for a table guarantees. -/
structure Conditions.WellFormed (schema : Schema) (own : Conditions) : Prop where
  equalities : ∀ e ∈ own.equalities, ∃ field ∈ schema.fields, field.key = e.1 ∧
    e.2.fits field.family = true
  operations : ∀ o ∈ own.operations, o.field ∈ schema.fields ∧
    o.values.fitsOperation o.field.family = true
  address : own.address.isSome = true → ∃ field ∈ schema.fields, field.family = .address
  root : ∀ r ∈ own.root, validAddress r = true
  computed : ∀ c ∈ own.computed, c.1 ∈ schema.computed

/-- What parsing a tree for a table guarantees. -/
inductive FilterNode.WellFormed (schema : Schema) : FilterNode → Prop where
  | node (own : Conditions) (andChildren orChildren : List FilterNode) :
      own.WellFormed schema → (∀ child ∈ andChildren, child.WellFormed schema) →
      (∀ child ∈ orChildren, child.WellFormed schema) →
      (FilterNode.node own andChildren orChildren).WellFormed schema

/-- A parsed filter, the tree's root plus the query controls. -/
structure FilterCore where
  table : Table
  node : FilterNode
  order : List OrderTerm
  limit : Option UInt64
  offset : Option UInt64
  wellFormed : node.WellFormed table.schema

/-! ## 2. Bound values -/

/-- A UUID in its bound form. -/
def idValue (id : Uuid) : SqlDialect → Value
  | .sqliteText => .text (uuidText id)
  | .postgres => .uuid id.toNat

/-- A timestamp in its bound form. -/
def timestampValue (t : Int) : SqlDialect → Value
  | .sqliteText => .text (timestampText t)
  | .postgres => .timestamp t

/-- A boolean in its bound form; the SQLite drivers bind a number. -/
def booleanValue (b : Bool) : SqlDialect → Value
  | .sqliteText => .integer b.toInt
  | .postgres => .boolean b

/-- An equality for one value, an `IN` for several. -/
def matchOneOf (subject : Term) : List Value → Condition
  | [v] => .compare .eq subject (.value v)
  | values => .isIn subject values

def castText (key : String) : Term := .call "CAST(? AS TEXT)" [.column key]

def equalityCondition (field : FilterField) (dialect : SqlDialect) : Values → Condition
  | .texts texts =>
    if field.family = .jsonValue then matchOneOf (castText field.key) (texts.map .text)
    else matchOneOf (.column field.key) (texts.map .text)
  | .uuids ids => matchOneOf (.column field.key) (ids.map (idValue · dialect))
  | .stamps instants => matchOneOf (.column field.key) (instants.map (timestampValue · dialect))
  | .bytes patterns => matchOneOf (.column field.key) (patterns.map .blob)
  | .boolean wanted => .compare .eq (.column field.key) (.value (booleanValue wanted dialect))

/-! ## 3. Patterns -/

/-- Wrap an already-escaped pattern in the wildcards its kind calls for. -/
def withWildcards (text : Text) (wildcard : Char) : OperationKind → Text
  | .contains => wildcard :: text ++ [wildcard]
  | .starts => text ++ [wildcard]
  | .ends => wildcard :: text

def textPattern (subject : Term) (kind : OperationKind) (insensitive : Bool) (pattern : Text) :
    SqlDialect → Condition
  | .sqliteText =>
    if insensitive then
      .like (.call "lower(?)" [subject])
        (.call "lower(?)" [.value (.text (withWildcards (likeEscape '^' pattern) '%' kind))])
        (some '^')
    else .glob subject (.value (.text (withWildcards (globEscape pattern) '*' kind)))
  | .postgres =>
    let escaped := Term.value (.text (withWildcards (likeEscape '^' pattern) '%' kind))
    if insensitive then .ilike subject escaped (some '^') else .like subject escaped (some '^')

/-- Match a text subject against patterns. When every pattern is empty the whole match is true, even
    for a NULL subject. -/
def matchTextPatterns (subject : Term) (kind : OperationKind) (patterns : List Text)
    (dialect : SqlDialect) (insensitive : Bool) : Condition :=
  if patterns.all (·.isEmpty) then .constant true
  else
    match patterns.map (textPattern subject kind insensitive · dialect) with
    | [] => .constant true
    | c :: conditions => conditions.foldl .or c

/-- The space-separated hex tokenization of a bytes value. -/
def tokenizeBytes (bytes : List UInt8) : Text :=
  bytes.flatMap fun b => [hexDigit (b.toNat / 16), hexDigit (b.toNat % 16), ' ']

def bytesPattern (key : String) (kind : OperationKind) (pattern : List UInt8) :
    SqlDialect → Condition
  | .sqliteText =>
    if pattern = [] then .constant true
    else
      match kind with
      | .contains =>
        .compare .gt (.call "instr" [.column key, .value (.blob pattern)]) (.value (.integer 0))
      | .starts =>
        .compare .eq (.call "substr" [.column key, .value (.integer 1),
          .value (.integer pattern.length)]) (.value (.blob pattern))
      | .ends =>
        .compare .eq (.call "substr" [.column key, .value (.integer (-pattern.length))])
          (.value (.blob pattern))
  | .postgres =>
    if pattern = [] then .constant true
    else
      .like (.call "ceres_tokenize_bytes" [.column key])
        (.value (.text (withWildcards (likeEscape '^' (tokenizeBytes pattern)) '%' kind))) (some '^')

/-- Match a bytes column against patterns. -/
def matchBytesPatterns (key : String) (kind : OperationKind) (patterns : List (List UInt8))
    (dialect : SqlDialect) : Condition :=
  match patterns.map (bytesPattern key kind · dialect) with
  | [] => .constant false
  | c :: conditions => conditions.foldl .or c

def shapeCondition (predicate : Computed) (dialect : SqlDialect) : Condition :=
  match predicate.shape with
  | .internal =>
    .and (matchTextPatterns (.column predicate.column) .starts ["__".toList] dialect false)
      (matchTextPatterns (.column predicate.column) .ends ["__".toList] dialect false)
  | .literal wanted => .compare .eq (.column predicate.column) (.value (.text wanted))
  | .present => .isNotNull (.column predicate.column)

/-! ## 4. Times -/

/-- One time-of-day window's bounds, and whether the window is contiguous. -/
def clockWindow (after before : Option Nat) (span : Nat) : Option (Nat × Nat × Bool) :=
  if after.isNone && before.isNone then none
  else
    let minimum := after.getD 0
    let maximum := before.getD span
    some (minimum, maximum, minimum ≤ maximum)

/-- Which part of the clock a window is about. -/
inductive ClockPart where
  | hour
  | minute
  deriving DecidableEq, Repr

/-- The hour or minute of the stored timestamp. -/
def clockPart (key : String) (part : ClockPart) : SqlDialect → Term
  | .sqliteText =>
    let format := match part with
      | .hour => "%H".toList
      | .minute => "%M".toList
    .call "CAST(? AS INTEGER)" [.call "strftime" [.value (.text format), .column key]]
  | .postgres =>
    match part with
    | .hour => .call "date_part('hour', $1 AT TIME ZONE 'UTC')" [.column key]
    | .minute => .call "date_part('minute', $1 AT TIME ZONE 'UTC')" [.column key]

/-- Which bucket a row's timestamp falls in; the numbers of the fragment are its arguments. -/
def bucketExpression (key : String) (origin width : Int) : SqlDialect → Term
  | .postgres =>
    .call "date_bin(INTERVAL '? microseconds', $1, TIMESTAMPTZ '?+00')"
      [.value (.integer width), .column key, .value (.text (timestampText origin))]
  | .sqliteText =>
    .call "CAST(floor(((unixepoch(?) - ?) * 1000000.0 + (CAST(substr(substr(?, 20) || '.000000', 2, 6) AS INTEGER) - ?)) / ?) AS INTEGER)"
      [.column key, .value (.integer (origin / 1000000)), .column key,
       .value (.integer (origin % 1000000)), .value (.integer width)]

/-- Integer division rounding half to even. -/
def divideRoundingHalfEven (total divisor : Int) : Int :=
  let quotient := total / divisor
  let doubled := total % divisor * 2
  if doubled > divisor ∨ (doubled = divisor ∧ quotient % 2 ≠ 0) then quotient + 1 else quotient

namespace Conditions

variable (own : Conditions)

/-- The bounds a `timespan` adds, anchored after, before, or at the clock, in that precedence. -/
def timespanBounds (now : Int) : Option Int × Option Int :=
  match own.timespan with
  | none => (none, none)
  | some timespan =>
    match own.after, own.before with
    | some after, _ => (none, some (after + timespan))
    | none, some before => (some (before - timespan), none)
    | none, none => (some (now - timespan), some now)

/-- The effective start and end of the node's time range, the tightest bound winning on each side. -/
def timeBounds (now : Int) : Option Int × Option Int :=
  let (spanStart, spanEnd) := own.timespanBounds now
  let starts := own.after.toList ++ spanStart.toList ++ (own.maxAge.map (now - ·)).toList
  let ends := own.before.toList ++ spanEnd.toList ++ (own.minAge.map (now - ·)).toList
  (starts.max?, ends.min?)

def windowConditions (key : String) (now : Int) (dialect : SqlDialect) : List Condition :=
  let bound (op : Comparison) (t : Int) :=
    Condition.compare op (.column key) (.value (timestampValue t dialect))
  let (spanStart, spanEnd) := own.timespanBounds now
  (own.after.map (bound .ge)).toList ++ (own.before.map (bound .lt)).toList ++
    (spanStart.map (bound .ge)).toList ++ (spanEnd.map (bound .lt)).toList ++
    (own.maxAge.map fun age => bound .gt (now - age)).toList ++
    (own.minAge.map fun age => bound .le (now - age)).toList

def clockCondition (key : String) (dialect : SqlDialect) (part : ClockPart)
    (after before : Option Nat) (span : Nat) : List Condition :=
  match clockWindow after before span with
  | none => []
  | some (minimum, maximum, contiguous) =>
    let value := clockPart key part dialect
    let withinMinimum := Condition.compare .ge value (.value (.integer minimum))
    let withinMaximum := Condition.compare .lt value (.value (.integer maximum))
    [if contiguous then .and withinMinimum withinMaximum else .or withinMinimum withinMaximum]

/-- The time-of-day window conditions on the timestamp column. -/
def clockConditions (key : String) (dialect : SqlDialect) : List Condition :=
  clockCondition key dialect .hour own.afterHour own.beforeHour 24 ++
    clockCondition key dialect .minute own.afterMinute own.beforeMinute 60

/-- One bucket membership condition, the timestamp landing among each bucket's kept timestamps. -/
def bucketCondition (key : String) (origin width : Int) (start end_ : Option Int)
    (select : SubsampleSelect) (dialect : SqlDialect) : Condition :=
  .inGrouped key (select = .last)
    ((start.map fun t => (Comparison.ge, timestampValue t dialect)).toList ++
      (end_.map fun t => (Comparison.lt, timestampValue t dialect)).toList)
    (bucketExpression key origin width dialect)

/-- The subsampling conditions, each a membership test against the timestamps the buckets keep. -/
def subsampleConditions (key : String) (now : Int) (dialect : SqlDialect) : List Condition :=
  let (start, end_) := own.timeBounds now
  let select := own.subsampleSelect.getD .first
  (match own.subsampleEvery with
    | none => []
    | some every =>
      -- with no start the buckets measure from the day's midnight
      let origin := start.getD (now / DAY * DAY)
      [bucketCondition key origin (max every 1) start end_ select dialect]) ++
  match own.subsample, start, end_ with
  | some count, some start, some end_ =>
    let width := max (divideRoundingHalfEven (end_ - start) (max count 1 : Nat)) 1
    [bucketCondition key start width (some start) (some end_) select dialect]
  | _, _, _ => []

/-! ## 5. The conditions of one node -/

/-- The equality values held for one field. -/
def valuesOf (field : FilterField) : Option Values :=
  (own.equalities.find? fun e => e.1 = field.key).map (·.2)

def operationOf (field : FilterField) (operation : FieldOperation) : Option OperationFilter :=
  own.operations.find? fun o => o.field.key = field.key ∧ o.kind = operation.kind

/-- The condition of one operation filter. Its values are text or bytes. -/
def operationCondition (field : FilterField) (operation : FieldOperation) (held : OperationFilter)
    (dialect : SqlDialect) : List Condition :=
  match held.values with
  | .texts patterns =>
    let subject := if field.family = .json then castText field.key else .column field.key
    [matchTextPatterns subject held.kind patterns dialect operation.insensitive]
  | .bytes patterns => [matchBytesPatterns field.key held.kind patterns dialect]
  | _ => []

/-- Compile one field's operation filters, in the operations' declared order. -/
def operationConditions (field : FilterField) (dialect : SqlDialect) : List Condition :=
  field.operations.flatMap fun operation =>
    match own.operationOf field operation with
    | none => []
    | some held => operationCondition field operation held dialect

/-- The ordered bounds of a level field. -/
def levelConditions (key : String) : List Condition :=
  (own.minLevel.map fun minimum =>
      Condition.isIn (.column key) ((levels.drop minimum).map .text)).toList ++
    (own.maxLevel.map fun maximum =>
      Condition.isIn (.column key) ((levels.take (maximum + 1)).map .text)).toList

/-- The conditions of one field, the selector's only when asked for. -/
def fieldConditions (dialect : SqlDialect) (now : Int) (address : Bool) (field : FilterField) :
    List Condition :=
  ((own.valuesOf field).map (equalityCondition field dialect)).toList ++
    own.operationConditions field dialect ++
    (if address = true ∧ field.family = .address then
      (own.address.map (·.condition field.key own.root dialect)).toList else []) ++
    match field.family with
    | .timestamp =>
      own.windowConditions field.key now dialect ++ own.subsampleConditions field.key now dialect ++
        own.clockConditions field.key dialect
    | .level => own.levelConditions field.key
    | _ => []

def computedCondition (dialect : SqlDialect) (predicate : Computed × Bool) : Condition :=
  if predicate.2 then shapeCondition predicate.1 dialect
  else .not (shapeCondition predicate.1 dialect)

/-- This node's conditions, optionally without the address selector's own. -/
def compile (schema : Schema) (dialect : SqlDialect) (now : Int) (address : Bool) :
    List Condition :=
  (if own.impossible then [.constant false] else []) ++
    own.computed.map (computedCondition dialect) ++
    schema.fields.flatMap (own.fieldConditions dialect now address)

end Conditions

/-! ## 6. The conditions of a tree -/

/-- A node's conditions and its `or` terms as one list: with terms, one condition. -/
def joinTerms (ands terms : List Condition) : List Condition :=
  match terms with
  | [] => ands
  | term :: terms =>
    match allOf ands with
    | none => [terms.foldl .or term]
    | some own => [(term :: terms).foldl .or own]

/-- An `or` node's conditions grouped to hold together; one with no conditions matches everything. -/
def groupTerm (conditions : List Condition) : Condition := (allOf conditions).getD (.constant true)

mutual

/-- This node's conditions joined with its subfilter groups'. -/
def FilterNode.combined (schema : Schema) (dialect : SqlDialect) (now : Int) :
    FilterNode → List Condition
  | .node own andChildren orChildren =>
    joinTerms (own.compile schema dialect now true ++ combinedAnds schema dialect now andChildren)
      (combinedOrs schema dialect now orChildren)

/-- The `and` children's conditions, which extend the node's own. -/
def combinedAnds (schema : Schema) (dialect : SqlDialect) (now : Int) :
    List FilterNode → List Condition
  | [] => []
  | child :: children =>
    child.combined schema dialect now ++ combinedAnds schema dialect now children

/-- One term for each `or` child. -/
def combinedOrs (schema : Schema) (dialect : SqlDialect) (now : Int) :
    List FilterNode → List Condition
  | [] => []
  | child :: children =>
    groupTerm (child.combined schema dialect now) :: combinedOrs schema dialect now children

end

/-- The combined conditions without this node's own address selector; the children's stay. -/
def FilterNode.combinedWithoutAddress (schema : Schema) (dialect : SqlDialect) (now : Int) :
    FilterNode → List Condition
  | .node own andChildren orChildren =>
    joinTerms (own.compile schema dialect now false ++ combinedAnds schema dialect now andChildren)
      (combinedOrs schema dialect now orChildren)

/-! ## 7. What the conditions of a tree select -/

section Selection

variable {backend : Backend} {rows : List Row} {row : Row}

theorem selects_iff {conditions : List Condition} : selects backend rows conditions row = true ↔
      ∀ c ∈ conditions, c.eval backend rows row = some true := by
  simp [selects]

theorem groupTerm_true {conditions : List Condition} : (groupTerm conditions).eval backend rows row = some true ↔
      selects backend rows conditions row = true := by
  rw [groupTerm, selects_iff]
  cases h : allOf conditions with
  | some c =>
    rw [Option.getD_some]
    exact allOf_true h
  | none =>
    cases conditions with
    | nil => simp [Condition.eval]
    | cons c conditions => simp [allOf] at h

theorem selects_joinTerms {ands terms : List Condition} : selects backend rows (joinTerms ands terms) row = true ↔
      if terms = [] then selects backend rows ands row = true
      else (ands ≠ [] ∧ selects backend rows ands row = true) ∨
        ∃ t ∈ terms, t.eval backend rows row = some true := by
  cases terms with
  | nil => simp [joinTerms]
  | cons term terms =>
    rw [joinTerms, if_neg (by simp)]
    cases ha : allOf ands with
    | none =>
      have hands : ands = [] := by
        cases ands with
        | nil => rfl
        | cons c ands => simp [allOf] at ha
      rw [selects_iff]
      simp only [List.mem_singleton, forall_eq]
      rw [foldl_or_true]
      simp [hands]
    | some own =>
      have hands : ands ≠ [] := by
        rintro rfl
        simp [allOf] at ha
      rw [selects_iff]
      simp only [List.mem_singleton, forall_eq]
      rw [foldl_or_true, allOf_true ha, selects_iff]
      simp [hands]

theorem selects_append {c d : List Condition} : selects backend rows (c ++ d) row = true ↔
      selects backend rows c row = true ∧ selects backend rows d row = true := by
  simp [selects]

variable {schema : Schema} {dialect : SqlDialect} {now : Int}

theorem selects_combinedAnds : ∀ {children : List FilterNode},
    selects backend rows (combinedAnds schema dialect now children) row = true ↔
      ∀ child ∈ children, selects backend rows (child.combined schema dialect now) row = true
  | [] => by simp [combinedAnds, selects]
  | child :: children => by
      rw [combinedAnds, selects_append, selects_combinedAnds]
      simp

theorem combinedOrs_true : ∀ {children : List FilterNode},
    (∃ t ∈ combinedOrs schema dialect now children, t.eval backend rows row = some true) ↔
      ∃ child ∈ children, selects backend rows (child.combined schema dialect now) row = true
  | [] => by simp [combinedOrs]
  | child :: children => by
      simp only [combinedOrs, List.mem_cons, exists_eq_or_imp, groupTerm_true, combinedOrs_true]

theorem combinedOrs_eq_nil {children : List FilterNode} :
    combinedOrs schema dialect now children = [] ↔ children = [] := by
  cases children <;> simp [combinedOrs]

/-- **What a tree selects**: its own conditions and every `and` child, or some `or` child. A node with
    `or` children and nothing of its own leaves the selection to them. -/
theorem combined_true {own : Conditions} {andChildren orChildren : List FilterNode} : selects backend rows
        ((FilterNode.node own andChildren orChildren).combined schema dialect now) row = true ↔
      (orChildren ≠ [] → own.compile schema dialect now true ++
          combinedAnds schema dialect now andChildren ≠ []) ∧
        selects backend rows (own.compile schema dialect now true) row = true ∧ (∀ child ∈ andChildren,
          selects backend rows (child.combined schema dialect now) row = true) ∨
      ∃ child ∈ orChildren, selects backend rows (child.combined schema dialect now) row = true := by
  rw [FilterNode.combined, selects_joinTerms, combinedOrs_true, selects_append, selects_combinedAnds]
  by_cases h : orChildren = []
  · rw [if_pos (combinedOrs_eq_nil.mpr h)]
    simp [h]
  · rw [if_neg fun hn => h (combinedOrs_eq_nil.mp hn)]
    simp [h]

end Selection

end Ceres.Database
