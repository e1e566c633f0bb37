/-
  File:      Ceres/Database/Subsample.lean
  Subject:   SUBSAMPLED LISTINGS (`subsample_conditions`, `bucket_condition`).

  A subsampled listing makes buckets of equal width from an origin on and keeps, of each, the rows at
  its first (or last) timestamp. The timestamps come from a subquery of its own: it reads the whole
  table within the half-open time range and knows nothing of the node's other conditions.

  * `bucketOf`, `IsSample` -- the bucket of an instant, and which rows the subquery keeps;
  * `selects_every`, `selects_count` -- a subsampled node selects the rows that match its other
    conditions and are samples;
  * **`bucket_represented_iff`** -- when every bucket with a matching row is represented;
  * **`samples_bounded_iff`** -- when there is one row for each bucket, and no more than asked for.
-/
import Ceres.Database.Expansion

namespace Ceres.Database

open Ceres.Library
open Ceres.Library.Sql

set_option linter.unusedSectionVars false

/-! ## 1. Buckets and samples -/

/-- The column that is subsampled: every record's, and no other table has one of its family. -/
def timestampField : FilterField := field "timestamp" .timestamp

theorem timestampField_of_family (table : Table) :
    ∀ f ∈ table.schema.fields, f.family = .timestamp → f = timestampField := by
  cases table <;> decide

/-- The bucket of an instant. -/
def bucketOf (origin width t : Int) : Int := (t - origin) / width

/-- The documented value of the dialect's bucket expression: the bucket's first instant, or its number. -/
def bucketValue (origin width t : Int) : SqlDialect → Value
  | .postgres => .timestamp (origin + bucketOf origin width t * width)
  | .sqliteText => .integer (bucketOf origin width t)

theorem bucketValue_inj {origin width t u : Int} (hwidth : 0 < width) (dialect : SqlDialect) :
    bucketValue origin width t dialect = bucketValue origin width u dialect ↔
      bucketOf origin width t = bucketOf origin width u := by
  cases dialect with
  | sqliteText => simp [bucketValue]
  | postgres => simp [bucketValue, hwidth.ne']

/-- Where the buckets of a node begin: with no start, at the day's midnight. -/
def Conditions.origin (own : Conditions) (now : Int) : Int :=
  (own.timeBounds now).1.getD (now / DAY * DAY)

/-- The width of the buckets that `subsample` asks for. -/
def Conditions.countWidth (start end_ : Int) (count : Nat) : Int :=
  max (divideRoundingHalfEven (end_ - start) (max count 1 : Nat)) 1

/-- The bounds of the subquery. -/
def spanBounds (dialect : SqlDialect) (start end_ : Option Int) : List (Comparison × Value) :=
  (start.map fun t => (Comparison.ge, timestampValue t dialect)).toList ++
    (end_.map fun t => (Comparison.lt, timestampValue t dialect)).toList

/-- What the table holds: the rows' instants, in the dialect's stored form, and the bucket expression's
    documented values on them. -/
structure Stamped (backend : Backend) (dialect : SqlDialect) (rows : List Row) (stamp : Row → Int)
    (origin width : Int) : Prop where
  stored : ∀ row ∈ rows, row "timestamp" = timestampValue (stamp row) dialect
  bucket : ∀ row ∈ rows, (bucketExpression "timestamp" origin width dialect).eval backend row =
    bucketValue origin width (stamp row) dialect

/-- The row's timestamp is within the range and leads those of the table's rows in its bucket. -/
def IsSample (dialect : SqlDialect) (rows : List Row) (stamp : Row → Int) (origin width : Int)
    (start end_ : Option Int) (select : SubsampleSelect) (row : Row) : Prop :=
  within (spanBounds dialect start end_) (row "timestamp") ∧
    ∀ other ∈ rows, within (spanBounds dialect start end_) (other "timestamp") →
      bucketOf origin width (stamp other) = bucketOf origin width (stamp row) →
      leads (select = .last) (row "timestamp") (other "timestamp")

instance (dialect : SqlDialect) (rows : List Row) (stamp : Row → Int) (origin width : Int)
    (start end_ : Option Int) (select : SubsampleSelect) (row : Row) :
    Decidable (IsSample dialect rows stamp origin width start end_ select row) :=
  inferInstanceAs (Decidable (_ ∧ ∀ other ∈ rows, _ → _ → _))

theorem timestampValue_ne_null (t : Int) (dialect : SqlDialect) : timestampValue t dialect ≠ .null := by
  cases dialect <;> simp [timestampValue]

theorem eval_bucketExpression {backend : Backend} {row other : Row} (origin width : Int)
    (dialect : SqlDialect) (h : row "timestamp" = other "timestamp") :
    (bucketExpression "timestamp" origin width dialect).eval backend row =
      (bucketExpression "timestamp" origin width dialect).eval backend other := by
  cases dialect <;> simp only [bucketExpression, Term.eval, Term.evalAll, h]

section Samples

variable {backend : Backend} {dialect : SqlDialect} {rows : List Row} {stamp : Row → Int}
  {origin width : Int} {start end_ : Option Int} {select : SubsampleSelect}

/-- **The subquery keeps the samples.** -/
theorem bucketCondition_true (hwidth : 0 < width) (h : Stamped backend dialect rows stamp origin width)
    {row : Row} (hrow : row ∈ rows) :
    (Conditions.bucketCondition "timestamp" origin width start end_ select dialect).eval backend rows
        row = some true ↔ IsSample dialect rows stamp origin width start end_ select row := by
  have hnull : ∀ r ∈ rows, r "timestamp" ≠ .null := by
    intro r hr
    rw [h.stored r hr]
    exact timestampValue_ne_null _ _
  rw [Conditions.bucketCondition, inGrouped_true hrow (hnull row hrow)
    fun r _ heq => eval_bucketExpression origin width dialect heq]
  refine and_congr_right fun _ => forall₂_congr fun other hother => ?_
  rw [h.bucket other hother, h.bucket row hrow, bucketValue_inj hwidth]
  exact imp_congr_right fun _ => ⟨fun himp => himp (hnull other hother), fun himp _ => himp⟩

theorem IsSample.timestamp_eq {row other : Row} (hrow : row ∈ rows) (hother : other ∈ rows)
    (h : IsSample dialect rows stamp origin width start end_ select row)
    (h' : IsSample dialect rows stamp origin width start end_ select other)
    (hbucket : bucketOf origin width (stamp row) = bucketOf origin width (stamp other)) :
    row "timestamp" = other "timestamp" :=
  leads_antisymm (h.2 other hother h'.1 hbucket.symm) (h'.2 row hrow h.1 hbucket)

theorem Stamped.bucketOf_eq (hwidth : 0 < width) (h : Stamped backend dialect rows stamp origin width)
    {row other : Row} (hrow : row ∈ rows) (hother : other ∈ rows) (heq : row "timestamp" = other "timestamp") :
    bucketOf origin width (stamp row) = bucketOf origin width (stamp other) := by
  rw [← bucketValue_inj hwidth dialect, ← h.bucket row hrow, ← h.bucket other hother]
  exact eval_bucketExpression origin width dialect heq

end Samples

/-! ## 2. A subsampled node -/

section Node

variable {backend : Backend} {dialect : SqlDialect} {rows : List Row} {row : Row} {now : Int}
  {address : Bool} (own : Conditions)

/-- The bucket condition of `subsample_every`. -/
def everyCondition (now every : Int) (dialect : SqlDialect) : Condition :=
  Conditions.bucketCondition "timestamp" (own.origin now) (max every 1) (own.timeBounds now).1
    (own.timeBounds now).2 (own.subsampleSelect.getD .first) dialect

/-- The bucket condition of `subsample`. -/
def countCondition (start end_ : Int) (count : Nat) (dialect : SqlDialect) : Condition :=
  Conditions.bucketCondition "timestamp" start (Conditions.countWidth start end_ count) (some start)
    (some end_) (own.subsampleSelect.getD .first) dialect

theorem selects_singleton {c : Condition} :
    selects backend rows [c] row = true ↔ c.eval backend rows row = some true := by
  simp [selects]

theorem selects_compile_of {own other : Conditions} {table : Table} {extra : Condition}
    (hrecord : timestampField ∈ table.schema.fields)
    (himpossible : own.impossible = other.impossible) (hcomputed : own.computed = other.computed)
    (hfield : ∀ f : FilterField, f.family ≠ .timestamp →
      own.fieldConditions dialect now address f = other.fieldConditions dialect now address f)
    (htimestamp : selects backend rows (own.fieldConditions dialect now address timestampField) row = true ↔
      selects backend rows (other.fieldConditions dialect now address timestampField) row = true ∧
        extra.eval backend rows row = some true) :
    selects backend rows (own.compile table.schema dialect now address) row = true ↔
      selects backend rows (other.compile table.schema dialect now address) row = true ∧
        extra.eval backend rows row = some true := by
  have hrest : ∀ f ∈ table.schema.fields,
      selects backend rows (own.fieldConditions dialect now address f) row = true ↔
        selects backend rows (other.fieldConditions dialect now address f) row = true ∧
          (f = timestampField → extra.eval backend rows row = some true) := by
    intro f hf
    by_cases hfamily : f.family = .timestamp
    · rw [timestampField_of_family table f hf hfamily, htimestamp]
      simp
    · rw [hfield f hfamily]
      have hne : f ≠ timestampField := fun heq => hfamily (by rw [heq]; rfl)
      simp [hne]
  rw [Conditions.compile, Conditions.compile, selects_append, selects_append, selects_flatMap,
    selects_append, selects_append, selects_flatMap, himpossible, hcomputed]
  constructor
  · intro h
    exact ⟨⟨h.1, fun f hf => ((hrest f hf).mp (h.2 f hf)).1⟩,
      ((hrest _ hrecord).mp (h.2 _ hrecord)).2 rfl⟩
  · intro h
    exact ⟨h.1.1, fun f hf => (hrest f hf).mpr ⟨h.1.2 f hf, fun _ => h.2⟩⟩

/-- What a timestamp field's conditions are but for the subsampling. -/
def plainConditions (dialect : SqlDialect) (now : Int) (address : Bool) (f : FilterField) :
    List Condition × List Condition :=
  (((own.valuesOf f).map (equalityCondition f dialect)).toList ++ own.operationConditions f dialect ++
      (if address = true ∧ f.family = .address then
        (own.address.map (·.condition f.key own.root dialect)).toList else []) ++
      own.windowConditions f.key now dialect,
    own.clockConditions f.key dialect)

theorem selects_timestampField :
    selects backend rows (own.fieldConditions dialect now address timestampField) row = true ↔
      (selects backend rows (plainConditions own dialect now address timestampField).1 row = true ∧
        selects backend rows (plainConditions own dialect now address timestampField).2 row = true) ∧
        selects backend rows (own.subsampleConditions "timestamp" now dialect) row = true := by
  have heq : own.fieldConditions dialect now address timestampField =
      (plainConditions own dialect now address timestampField).1 ++
        own.subsampleConditions "timestamp" now dialect ++
        (plainConditions own dialect now address timestampField).2 := by
    simp only [Conditions.fieldConditions, plainConditions, timestampField, field, List.append_assoc]
  rw [heq, selects_append, selects_append, and_right_comm]

/-- **With `subsample_every` a node selects the samples that match its other conditions.** -/
theorem selects_every {table : Table} (hrecord : timestampField ∈ table.schema.fields) {every : Int}
    (hevery : own.subsampleEvery = some every) :
    selects backend rows (own.compile table.schema dialect now address) row = true ↔ selects backend rows
          (Conditions.compile { own with subsampleEvery := none } table.schema dialect now address) row = true ∧
        (everyCondition own now every dialect).eval backend rows row = some true := by
  refine selects_compile_of hrecord rfl rfl (fun f hf => ?_) ?_
  · unfold Conditions.fieldConditions
    cases hfamily : f.family <;> first | rfl | exact absurd hfamily hf
  · have hsub : own.subsampleConditions "timestamp" now dialect =
        everyCondition own now every dialect ::
          Conditions.subsampleConditions { own with subsampleEvery := none } "timestamp" now dialect := by
      simp only [Conditions.subsampleConditions, hevery]
      rfl
    rw [selects_timestampField, hsub, ← List.singleton_append, selects_append, selects_singleton,
      selects_timestampField, and_assoc, and_assoc, and_assoc, and_comm (a := Condition.eval _ _ _ _ = _)]
    rfl

/-- **With `subsample` a node selects the samples that match its other conditions.** -/
theorem selects_count {table : Table} (hrecord : timestampField ∈ table.schema.fields) {count : Nat}
    {start end_ : Int} (hcount : own.subsample = some count)
    (hbounds : own.timeBounds now = (some start, some end_)) :
    selects backend rows (own.compile table.schema dialect now address) row = true ↔
      selects backend rows (Conditions.compile { own with subsample := none } table.schema dialect now address)
          row = true ∧ (countCondition own start end_ count dialect).eval backend rows row = some true := by
  refine selects_compile_of hrecord rfl rfl (fun f hf => ?_) ?_
  · unfold Conditions.fieldConditions
    cases hfamily : f.family <;> first | rfl | exact absurd hfamily hf
  · have hbounds' : Conditions.timeBounds { own with subsample := none } now = (some start, some end_) :=
      hbounds
    have hsub : own.subsampleConditions "timestamp" now dialect =
        Conditions.subsampleConditions { own with subsample := none } "timestamp" now dialect ++
          [countCondition own start end_ count dialect] := by
      simp only [Conditions.subsampleConditions, hcount, hbounds, hbounds', List.append_nil]
      rfl
    rw [selects_timestampField, hsub, selects_append, selects_singleton, selects_timestampField,
      and_assoc, and_assoc, and_assoc]
    rfl

end Node

/-! ## 3. Every bucket represented -/

/-- **A listing without limit and offset returns every row its tree selects**, by the order. -/
theorem FilterCore.returns_iff {filter : FilterCore} {backend : Backend}
    {place : String → Value → Value.Key} {rows result : List Row} {addresses : List Text}
    {dialect : SqlDialect} {now : Int} (hlimit : filter.limit = none) (hoffset : filter.offset = none) :
    (filter.listingStatement addresses dialect now).Returns backend place rows result ↔
      result.Perm (rows.filter (selects backend rows (filter.node.combined filter.table.schema dialect now))) ∧
      result.Pairwise fun x y => sortKey place filter.orderBy x ≤ sortKey place filter.orderBy y := by
  have hscope : filter.expansionScope = none := by
    rw [FilterCore.expansionScope, hlimit]
    rfl
  have hpage : (filter.listingStatement addresses dialect now).Returns backend place rows result ↔
      IsPage (sortKey place filter.orderBy) (rows.filter
        (selects backend rows (filter.node.combined filter.table.schema dialect now))) rows.length 0
        result := by
    rw [FilterCore.listingStatement, hscope]
    simp [FilterCore.statement, Statement.Returns, Select.Returns, FilterCore.page, hlimit, hoffset]
  have htake : ∀ arranged : List Row, arranged.Perm (rows.filter
      (selects backend rows (filter.node.combined filter.table.schema dialect now))) →
      (arranged.drop 0).take rows.length = arranged := by
    intro arranged hperm
    have hlength : arranged.length ≤ rows.length := hperm.length_eq ▸ List.length_filter_le _ _
    rw [List.drop_zero, List.take_of_length_le hlength]
  rw [hpage]
  constructor
  · intro h
    obtain ⟨arranged, hperm, hsorted, rfl⟩ := h
    rw [htake arranged hperm]
    exact ⟨hperm, hsorted⟩
  · intro h
    exact ⟨result, h.1, h.2, (htake result h.1).symm⟩

theorem FilterCore.exists_returns (filter : FilterCore) (hlimit : filter.limit = none)
    (hoffset : filter.offset = none) (backend : Backend) (place : String → Value → Value.Key)
    (rows : List Row) (addresses : List Text) (dialect : SqlDialect) (now : Int) :
    ∃ result, (filter.listingStatement addresses dialect now).Returns backend place rows result :=
  ⟨_, (FilterCore.returns_iff hlimit hoffset).mpr ⟨arrange_perm _ _, arrange_pairwise _ _⟩⟩

section Listing

variable {filter : FilterCore} {backend : Backend} {place : String → Value → Value.Key}
  {rows result : List Row} {addresses : List Text} {dialect : SqlDialect} {now : Int}
  {own : Conditions} {andChildren orChildren : List FilterNode} {stamp : Row → Int}

/-- The rows that satisfy a node's conditions and those of its `and` children. -/
def matching (filter : FilterCore) (backend : Backend) (rows : List Row) (dialect : SqlDialect)
    (now : Int) (own : Conditions) (andChildren : List FilterNode) (row : Row) : Bool :=
  selects backend rows ((FilterNode.node own andChildren []).combined filter.table.schema dialect now)
    row

theorem matching_iff {row : Row} : matching filter backend rows dialect now own andChildren row = true ↔
      selects backend rows (own.compile filter.table.schema dialect now true) row = true ∧
        ∀ child ∈ andChildren,
          selects backend rows (child.combined filter.table.schema dialect now) row = true := by
  rw [matching, combined_true]
  simp

theorem combined_iff_matching {row : Row} (hown : own.compile filter.table.schema dialect now true ≠ []) :
    selects backend rows
        ((FilterNode.node own andChildren orChildren).combined filter.table.schema dialect now) row = true ↔
      matching filter backend rows dialect now own andChildren row = true ∨ ∃ child ∈ orChildren,
          selects backend rows (child.combined filter.table.schema dialect now) row = true := by
  rw [combined_true, matching_iff]
  simp [hown]

theorem compile_ne_nil {every : Int} (hrecord : timestampField ∈ filter.table.schema.fields)
    (hevery : own.subsampleEvery = some every) : own.compile filter.table.schema dialect now true ≠ [] := by
  have hsub : everyCondition own now every dialect ∈
      own.subsampleConditions "timestamp" now dialect := by
    simp only [Conditions.subsampleConditions, hevery]
    exact List.mem_cons_self
  have hfield : everyCondition own now every dialect ∈
      own.fieldConditions dialect now true timestampField := by
    simp only [Conditions.fieldConditions, timestampField, field, List.mem_append]
    exact .inr (.inl (.inr hsub))
  exact List.ne_nil_of_mem
    (List.mem_append_right _ (List.mem_flatMap.mpr ⟨timestampField, hrecord, hfield⟩))

/-- The rows that `subsample_every` keeps of those that match the other conditions. -/
theorem matching_every {every : Int} (hrecord : timestampField ∈ filter.table.schema.fields)
    (hevery : own.subsampleEvery = some every)
    (h : Stamped backend dialect rows stamp (own.origin now) (max every 1)) {row : Row} (hrow : row ∈ rows) :
    matching filter backend rows dialect now own andChildren row = true ↔
      matching filter backend rows dialect now { own with subsampleEvery := none } andChildren row =
          true ∧ IsSample dialect rows stamp (own.origin now) (max every 1) (own.timeBounds now).1
          (own.timeBounds now).2 (own.subsampleSelect.getD .first) row := by
  rw [matching_iff, matching_iff, selects_every own hrecord hevery, everyCondition,
    bucketCondition_true (by omega) h hrow, and_right_comm]

/-- **A subsampled listing represents every bucket in which a row satisfies the other conditions exactly
    when each such bucket's sample is a row that satisfies them**: the subquery picks the sample from
    all the rows of the table within the half-open range. -/
theorem bucket_represented_iff {every : Int} (hrecord : timestampField ∈ filter.table.schema.fields)
    (hnode : filter.node = .node own andChildren orChildren) (hlimit : filter.limit = none)
    (hoffset : filter.offset = none) (hevery : own.subsampleEvery = some every)
    (hstamped : Stamped backend dialect rows stamp (own.origin now) (max every 1))
    (hreturns : (filter.listingStatement addresses dialect now).Returns backend place rows result) :
    (∀ row ∈ rows,
        matching filter backend rows dialect now { own with subsampleEvery := none } andChildren row =
          true →
        ∃ sample ∈ result, bucketOf (own.origin now) (max every 1) (stamp sample) =
          bucketOf (own.origin now) (max every 1) (stamp row)) ↔
      ∀ row ∈ rows,
        matching filter backend rows dialect now { own with subsampleEvery := none } andChildren row =
          true →
        ∃ other ∈ rows, bucketOf (own.origin now) (max every 1) (stamp other) =
            bucketOf (own.origin now) (max every 1) (stamp row) ∧
          (matching filter backend rows dialect now { own with subsampleEvery := none } andChildren
                other = true ∧
              IsSample dialect rows stamp (own.origin now) (max every 1) (own.timeBounds now).1
                (own.timeBounds now).2 (own.subsampleSelect.getD .first) other ∨
            ∃ child ∈ orChildren,
              selects backend rows (child.combined filter.table.schema dialect now) other = true) := by
  have hmem : ∀ row, row ∈ result ↔ row ∈ rows ∧
      (matching filter backend rows dialect now own andChildren row = true ∨
        ∃ child ∈ orChildren,
          selects backend rows (child.combined filter.table.schema dialect now) row = true) := by
    intro row
    rw [((FilterCore.returns_iff hlimit hoffset).mp hreturns).1.mem_iff, List.mem_filter, hnode,
      combined_iff_matching (compile_ne_nil hrecord hevery)]
  refine forall₂_congr fun row hrow => imp_congr_right fun _ => ⟨fun h => ?_, fun h => ?_⟩
  · obtain ⟨sample, hsample, hbucket⟩ := h
    obtain ⟨hin, hselected⟩ := (hmem sample).mp hsample
    rw [matching_every hrecord hevery hstamped hin] at hselected
    exact ⟨sample, hin, hbucket, hselected⟩
  · obtain ⟨other, hother, hbucket, hselected⟩ := h
    rw [← matching_every hrecord hevery hstamped hother] at hselected
    exact ⟨other, (hmem other).mpr ⟨hother, hselected⟩, hbucket⟩

end Listing

/-- PostgreSQL's `date_bin` with the epoch for origin. -/
def dateBin (_ : String) : List Value → Value
  | [.integer width, .timestamp t, _] => .timestamp (t / width * width)
  | _ => .null

/-- One log record at an instant. -/
def logAt (t : Int) (level : Text) : Row := fun key =>
  if key = "timestamp" then .timestamp t else if key = "level" then .text level else .null

def stampOf (row : Row) : Int :=
  match row "timestamp" with
  | .timestamp t => t
  | _ => 0

/-- The errors since the epoch, one for each minute. -/
def minutelyErrors : Conditions where
  equalities := [("level", .texts ["error".toList])]
  after := some 0
  subsampleEvery := some 60000000

def minutely : FilterCore where
  table := .logs
  node := .node minutelyErrors [] []
  order := []
  limit := none
  offset := none
  wellFormed := .node _ _ _
    ⟨by decide, by decide, by decide, by decide, by decide⟩ (by simp) (by simp)

theorem dateBin_stamped (logs : List (Int × Text)) (width : Int) :
    Stamped (SqlDialect.postgres.backend Char.toLower dateBin) .postgres
      (logs.map fun l => logAt l.1 l.2) stampOf 0 width := by
  refine ⟨fun row hrow => ?_, fun row hrow => ?_⟩ <;> obtain ⟨l, -, rfl⟩ := List.mem_map.mp hrow
  · rfl
  · show Value.timestamp (l.1 / width * width) = Value.timestamp (0 + (l.1 - 0) / width * width)
    rw [zero_add, sub_zero]

/-- A minute whose first record is no error: the error behind it is in a bucket of its own kind, and
    nothing is returned. -/
theorem minutely_misses : ∃ result : List Row,
    (minutely.listingStatement [] .postgres 0).Returns
        (SqlDialect.postgres.backend Char.toLower dateBin) (fun _ v => v.key)
        [logAt 0 "info".toList, logAt 1 "error".toList] result ∧
      ∃ row ∈ [logAt 0 "info".toList, logAt 1 "error".toList],
        matching minutely (SqlDialect.postgres.backend Char.toLower dateBin)
          [logAt 0 "info".toList, logAt 1 "error".toList] .postgres 0
          { minutelyErrors with subsampleEvery := none } [] row = true ∧
        ¬ ∃ sample ∈ result, bucketOf 0 60000000 (stampOf sample) = bucketOf 0 60000000 (stampOf row) := by
  have hnone : [logAt 0 "info".toList, logAt 1 "error".toList].filter (selects
      (SqlDialect.postgres.backend Char.toLower dateBin) [logAt 0 "info".toList, logAt 1 "error".toList]
      (minutely.node.combined minutely.table.schema .postgres 0)) = [] := by
    rw [List.filter_eq_nil_iff]
    decide
  refine ⟨[], (FilterCore.returns_iff rfl rfl).mpr ⟨?_, .nil⟩, logAt 1 "error".toList, by simp, ?_, by simp⟩
  · rw [hnone]
  · decide

/-- A minute whose first record is the error. -/
theorem minutely_represents : ∃ result : List Row,
    (minutely.listingStatement [] .postgres 0).Returns
        (SqlDialect.postgres.backend Char.toLower dateBin) (fun _ v => v.key)
        [logAt 0 "error".toList, logAt 1 "info".toList] result ∧
      ∀ row ∈ [logAt 0 "error".toList, logAt 1 "info".toList],
        matching minutely (SqlDialect.postgres.backend Char.toLower dateBin)
          [logAt 0 "error".toList, logAt 1 "info".toList] .postgres 0
          { minutelyErrors with subsampleEvery := none } [] row = true →
        ∃ sample ∈ result, bucketOf 0 60000000 (stampOf sample) =
          bucketOf 0 60000000 (stampOf row) := by
  have hone : [logAt 0 "error".toList, logAt 1 "info".toList].filter (selects
      (SqlDialect.postgres.backend Char.toLower dateBin) [logAt 0 "error".toList, logAt 1 "info".toList]
      (minutely.node.combined minutely.table.schema .postgres 0)) = [logAt 0 "error".toList] := by
    rw [List.filter_cons_of_pos (by decide), List.filter_cons_of_neg (by decide)]
    rfl
  have hreturns : (minutely.listingStatement [] .postgres 0).Returns
      (SqlDialect.postgres.backend Char.toLower dateBin) (fun _ v => v.key)
      [logAt 0 "error".toList, logAt 1 "info".toList] [logAt 0 "error".toList] :=
    (FilterCore.returns_iff rfl rfl).mpr ⟨by rw [hone], List.pairwise_singleton _ _⟩
  refine ⟨_, hreturns, (@bucket_represented_iff minutely _ _ _ _ _ _ _ minutelyErrors _ _ _
    60000000 (by decide) rfl rfl rfl rfl
    (dateBin_stamped [(0, "error".toList), (1, "info".toList)] 60000000) hreturns).mpr fun row hrow _ => ?_⟩
  refine ⟨logAt 0 "error".toList, by simp, ?_, .inl ⟨by decide, by decide⟩⟩
  revert row
  decide

/-! ## 4. Stored instants in order -/

theorem map_toNat_lt : ∀ {a b : Text}, a.map Char.toNat < b.map Char.toNat ↔ a < b
  | [], [] => by simp
  | [], _ :: _ => by simp
  | _ :: _, [] => by simp
  | c :: a, d :: b => by
      rw [List.map_cons, List.map_cons, List.cons_lt_cons_iff, List.cons_lt_cons_iff, map_toNat_lt,
        Char.toNat_inj]
      rfl

theorem text_key_lt {a b : Text} : (Value.text a).key < (Value.text b).key ↔ a < b := by
  rw [Value.key, Value.key, Prod.Lex.toLex_lt_toLex]
  simp [Prod.Lex.toLex_lt_toLex, map_toNat_lt]

theorem timestamp_key_lt {t u : Int} : (Value.timestamp t).key < (Value.timestamp u).key ↔ t < u := by
  rw [Value.key, Value.key, Prod.Lex.toLex_lt_toLex]
  simp [Prod.Lex.toLex_lt_toLex]

theorem stored_lt {dialect : SqlDialect} {t u : Int} (hyears : dialect = .sqliteText → InYears t ∧ InYears u) :
    (timestampValue t dialect).key < (timestampValue u dialect).key ↔ t < u := by
  cases dialect with
  | postgres => exact timestamp_key_lt
  | sqliteText =>
    show (Value.text _).key < (Value.text _).key ↔ _
    rw [text_key_lt, timestampText_lt_iff (hyears rfl).1 (hyears rfl).2]

theorem compareValues_lt_true {t u : Int} {dialect : SqlDialect} :
    compareValues .lt (timestampValue t dialect) (timestampValue u dialect) = some true ↔
      (timestampValue t dialect).key < (timestampValue u dialect).key := by
  rw [compareValues, if_neg (not_or.mpr ⟨timestampValue_ne_null _ _, timestampValue_ne_null _ _⟩),
    Option.some.injEq]
  show (cmp _ _ == Ordering.lt) = true ↔ _
  rw [beq_iff_eq, cmp_eq_lt_iff]

theorem compareValues_ge_true {t u : Int} {dialect : SqlDialect} :
    compareValues .ge (timestampValue t dialect) (timestampValue u dialect) = some true ↔
      ¬ (timestampValue t dialect).key < (timestampValue u dialect).key := by
  rw [compareValues, if_neg (not_or.mpr ⟨timestampValue_ne_null _ _, timestampValue_ne_null _ _⟩),
    Option.some.injEq]
  show (cmp _ _ != Ordering.lt) = true ↔ _
  rw [bne_iff_ne, ne_eq, cmp_eq_lt_iff]

/-- **A stored instant within the bounds lies in the range.** A bound outside of the years of the text
    form sorts first: as an end it takes nothing, as a start it has to be one of the early years. -/
theorem within_spanBounds {dialect : SqlDialect} {t start end_ : Int}
    (hyears : dialect = .sqliteText → InYears t ∧ (dateOf start).year ≤ 9999)
    (h : within (spanBounds dialect (some start) (some end_)) (timestampValue t dialect)) :
    start ≤ t ∧ t < end_ := by
  have hstart := h (.ge, timestampValue start dialect) (by simp [spanBounds])
  have hend := h (.lt, timestampValue end_ dialect) (by simp [spanBounds])
  rw [compareValues_ge_true] at hstart
  rw [compareValues_lt_true] at hend
  cases dialect with
  | postgres =>
    rw [stored_lt (by simp)] at hstart hend
    exact ⟨not_lt.mp hstart, hend⟩
  | sqliteText =>
    obtain ⟨hin, hearly⟩ := hyears rfl
    constructor
    · by_cases hs : InYears start
      · rw [stored_lt fun _ => ⟨hin, hs⟩] at hstart
        exact not_lt.mp hstart
      · -- the start is before year 0
        by_contra hlt
        have hyear := year_mono (not_le.mp hlt).le
        exact hs ⟨hin.1.trans hyear, hearly⟩
    · by_cases he : InYears end_
      · rwa [stored_lt fun _ => ⟨hin, he⟩] at hend
      · have hlt : (timestampValue end_ .sqliteText).key < (timestampValue t .sqliteText).key :=
          text_key_lt.mpr (timestampText_outside he hin)
        exact absurd (hend.trans hlt) (lt_irrefl _)

theorem within_spanBounds_iff {dialect : SqlDialect} {t start end_ : Int}
    (hyears : dialect = .sqliteText → InYears t ∧ InYears start ∧ InYears end_) :
    within (spanBounds dialect (some start) (some end_)) (timestampValue t dialect) ↔ start ≤ t ∧ t < end_ := by
  refine ⟨within_spanBounds fun hd => ⟨(hyears hd).1, (hyears hd).2.1.2⟩, fun h b hb => ?_⟩
  simp only [spanBounds, Option.map_some, Option.toList_some, List.cons_append, List.nil_append,
    List.mem_cons, List.not_mem_nil, or_false] at hb
  rcases hb with rfl | rfl
  · rw [compareValues_ge_true, stored_lt fun hd => ⟨(hyears hd).1, (hyears hd).2.1⟩]
    exact not_lt.mpr h.1
  · rw [compareValues_lt_true, stored_lt fun hd => ⟨(hyears hd).1, (hyears hd).2.2⟩]
    exact h.2


/-! ## 5. One row for each bucket, and no more than asked for -/

section Bounded

variable {backend : Backend} {dialect : SqlDialect} {rows : List Row} {stamp : Row → Int}
  {origin width : Int} {start end_ : Option Int} {select : SubsampleSelect}

/-- No two of the matching rows share a sample's timestamp. -/
def Untied (dialect : SqlDialect) (rows : List Row) (stamp : Row → Int) (origin width : Int)
    (start end_ : Option Int) (select : SubsampleSelect) (matches_ : Row → Bool) : Prop :=
  (rows.filter matches_).Pairwise fun row other => row "timestamp" = other "timestamp" →
    ¬ IsSample dialect rows stamp origin width start end_ select row

instance (dialect : SqlDialect) (rows : List Row) (stamp : Row → Int) (origin width : Int)
    (start end_ : Option Int) (select : SubsampleSelect) (matches_ : Row → Bool) :
    Decidable (Untied dialect rows stamp origin width start end_ select matches_) :=
  inferInstanceAs (Decidable (List.Pairwise _ _))

theorem IsSample.of_timestamp_eq (hwidth : 0 < width)
    (h : Stamped backend dialect rows stamp origin width) {row other : Row} (hrow : row ∈ rows)
    (hother : other ∈ rows) (heq : row "timestamp" = other "timestamp")
    (hsample : IsSample dialect rows stamp origin width start end_ select row) :
    IsSample dialect rows stamp origin width start end_ select other := by
  rw [IsSample, ← heq, ← h.bucketOf_eq hwidth hrow hother heq]
  exact hsample

/-- **The samples are of different buckets exactly when no two of the matching rows share a sample's
    timestamp**: the subquery keeps timestamps, and not rows. -/
theorem samples_apart_iff (hwidth : 0 < width) (h : Stamped backend dialect rows stamp origin width)
    {matches_ selected : Row → Bool} (hselected : ∀ row ∈ rows, selected row = true ↔ matches_ row = true ∧
      IsSample dialect rows stamp origin width start end_ select row) : (rows.filter selected).Pairwise
        (fun row other => bucketOf origin width (stamp row) ≠ bucketOf origin width (stamp other)) ↔
      Untied dialect rows stamp origin width start end_ select matches_ := by
  rw [Untied, List.pairwise_filter, List.pairwise_filter]
  refine ⟨fun hp => hp.imp_of_mem ?_, fun hp => hp.imp_of_mem ?_⟩
  · intro row other hrow hother hne hm hm' heq hsample
    have hsample' := hsample.of_timestamp_eq hwidth h hrow hother heq
    exact hne ((hselected row hrow).mpr ⟨hm, hsample⟩) ((hselected other hother).mpr ⟨hm', hsample'⟩)
      (h.bucketOf_eq hwidth hrow hother heq)
  · intro row other hrow hother hne hs hs' hbucket
    obtain ⟨hm, hsample⟩ := (hselected row hrow).mp hs
    obtain ⟨hm', hsample'⟩ := (hselected other hother).mp hs'
    exact hne hm hm' (hsample.timestamp_eq hrow hother hsample' hbucket) hsample

/-- The rounded width times the count reaches over the range: it divides without a rest, or the rest
    rounds up, or there are no more microseconds than samples. -/
def Covered (total : Int) (count : Nat) : Prop :=
  total ≤ count ∨ total % count = 0 ∨ (count : Int) < 2 * (total % count) ∨
    (2 * (total % count) = count ∧ total / count % 2 ≠ 0)

instance (total : Int) (count : Nat) : Decidable (Covered total count) :=
  inferInstanceAs (Decidable (_ ∨ _ ∨ _ ∨ _))

theorem covered_iff {from_ until_ : Int} {count : Nat} (hcount : 0 < count) :
    Covered (until_ - from_) count ↔ until_ - from_ ≤ count * Conditions.countWidth from_ until_ count := by
  have hdivide := Int.mul_ediv_add_emod (until_ - from_) count
  have hrest := Int.emod_nonneg (until_ - from_) (by omega : (count : Int) ≠ 0)
  have hless := Int.emod_lt_of_pos (until_ - from_) (by omega : (0 : Int) < count)
  rw [Covered, Conditions.countWidth, Nat.max_eq_left hcount, divideRoundingHalfEven]
  generalize until_ - from_ = total at *
  generalize hq : total / (count : Int) = q at *
  generalize hr : total % (count : Int) = r at *
  by_cases hup : r * 2 > count ∨ (r * 2 = count ∧ q % 2 ≠ 0)
  · rw [if_pos hup]
    refine iff_of_true (by omega) ?_
    calc total ≤ count * (q + 1) := by rw [mul_add, mul_one]; omega
      _ ≤ count * max (q + 1) 1 := by gcongr; exact le_max_left _ _
  · rw [if_neg hup]
    by_cases hsmall : q ≤ 0
    · have hneg : (count : Int) * q ≤ 0 := mul_nonpos_of_nonneg_of_nonpos (by omega) hsmall
      rw [max_eq_right (by omega), mul_one]
      exact iff_of_true (.inl (by omega)) (by omega)
    · have hlarge : (count : Int) * 1 ≤ count * q := by gcongr; omega
      rw [max_eq_left (by omega)]
      constructor <;> intro h <;> omega

theorem countWidth_pos {from_ until_ : Int} {count : Nat} : 0 < Conditions.countWidth from_ until_ count :=
  lt_of_lt_of_le Int.one_pos (le_max_right _ _)

/-- Instants of the range fall into as many buckets as were asked for. -/
theorem bucketOf_lt {from_ until_ t : Int} {count : Nat} (hcount : 0 < count)
    (hcovered : Covered (until_ - from_) count) (hfrom : from_ ≤ t) (huntil : t < until_) :
    0 ≤ bucketOf from_ (Conditions.countWidth from_ until_ count) t ∧
      bucketOf from_ (Conditions.countWidth from_ until_ count) t < count := by
  rw [covered_iff hcount] at hcovered
  exact ⟨Int.ediv_nonneg (by omega) countWidth_pos.le, Int.ediv_lt_of_lt_mul countWidth_pos (by omega)⟩

theorem length_le_of_apart {α : Type} {items : List α} {number : α → Int} {bound : Nat}
    (happart : items.Pairwise fun a b => number a ≠ number b)
    (hbound : ∀ a ∈ items, 0 ≤ number a ∧ number a < bound) : items.length ≤ bound := by
  have hnodup : (items.map number).Nodup := List.pairwise_map.mpr happart
  have hsubset : (items.map number).toFinset ⊆ Finset.Ico 0 (bound : Int) := by
    intro n hn
    obtain ⟨a, ha, rfl⟩ := List.mem_map.mp (List.mem_toFinset.mp hn)
    exact Finset.mem_Ico.mpr (hbound a ha)
  have hcard := Finset.card_le_card hsubset
  rw [List.toFinset_card_of_nodup hnodup, List.length_map, Int.card_Ico] at hcard
  omega

variable {filter : FilterCore} {place : String → Value → Value.Key} {result : List Row}
  {addresses : List Text} {now : Int} {own : Conditions} {andChildren : List FilterNode}

/-- The rows that `subsample` keeps of those that match the other conditions. -/
theorem matching_count {count : Nat} {from_ until_ : Int}
    (hrecord : timestampField ∈ filter.table.schema.fields) (hcount : own.subsample = some count)
    (hbounds : own.timeBounds now = (some from_, some until_))
    (h : Stamped backend dialect rows stamp from_ (Conditions.countWidth from_ until_ count)) {row : Row}
    (hrow : row ∈ rows) : matching filter backend rows dialect now own andChildren row = true ↔
      matching filter backend rows dialect now { own with subsample := none } andChildren row = true ∧
        IsSample dialect rows stamp from_ (Conditions.countWidth from_ until_ count) (some from_)
          (some until_) (own.subsampleSelect.getD .first) row := by
  rw [matching_iff, matching_iff, selects_count own hrecord hcount hbounds, countCondition,
    bucketCondition_true countWidth_pos h hrow, and_right_comm]

theorem apart_perm {a b : List Row} (hperm : a.Perm b) {number : Row → Int} :
    a.Pairwise (fun row other => number row ≠ number other) ↔
      b.Pairwise fun row other => number row ≠ number other :=
  hperm.pairwise_iff fun h => h.symm

/-- With `subsample` a listing returns no more rows than asked for, when no two matching rows share a
    sample's timestamp and the buckets cover the range. -/
theorem length_le_count {count : Nat} {from_ until_ : Int} (hrecord : timestampField ∈ filter.table.schema.fields)
    (hnode : filter.node = .node own andChildren []) (hlimit : filter.limit = none)
    (hoffset : filter.offset = none)
    (hreturns : (filter.listingStatement addresses dialect now).Returns backend place rows result)
    (hcount : own.subsample = some count) (hpositive : 0 < count)
    (hbounds : own.timeBounds now = (some from_, some until_))
    (hstamped : Stamped backend dialect rows stamp from_ (Conditions.countWidth from_ until_ count))
    (hyears : dialect = .sqliteText → (∀ row ∈ rows, InYears (stamp row)) ∧ (dateOf from_).year ≤ 9999)
    (huntied : Untied dialect rows stamp from_ (Conditions.countWidth from_ until_ count) (some from_)
      (some until_) (own.subsampleSelect.getD .first)
      (matching filter backend rows dialect now { own with subsample := none } andChildren))
    (hcovered : Covered (until_ - from_) count) : result.length ≤ count := by
  have hperm := ((FilterCore.returns_iff hlimit hoffset).mp hreturns).1
  rw [hnode] at hperm
  have happart : result.Pairwise fun row other =>
      bucketOf from_ (Conditions.countWidth from_ until_ count) (stamp row) ≠
        bucketOf from_ (Conditions.countWidth from_ until_ count) (stamp other) := by
    rw [apart_perm hperm]
    exact (samples_apart_iff countWidth_pos hstamped fun row hrow =>
      matching_count hrecord hcount hbounds hstamped hrow).mpr huntied
  refine length_le_of_apart happart ?_
  · intro row hrow
    obtain ⟨hin, hmatch⟩ := List.mem_filter.mp (hperm.mem_iff.mp hrow)
    have hwithin := ((matching_count hrecord hcount hbounds hstamped hin).mp hmatch).2.1
    rw [hstamped.stored row hin] at hwithin
    obtain ⟨hfrom, huntil⟩ := within_spanBounds
      (fun hd => ⟨(hyears hd).1 row hin, (hyears hd).2⟩) hwithin
    exact bucketOf_lt hpositive hcovered hfrom huntil

end Bounded


/-! ## 6. A range that the buckets do not cover -/

/-- A time range and the number of samples wanted of it. -/
def rangeOnly (from_ until_ : Int) (count : Nat) (select : SubsampleSelect) : Conditions where
  after := some from_
  before := some until_
  subsample := some count
  subsampleSelect := some select

def ranged (table : Table) (from_ until_ : Int) (count : Nat) (select : SubsampleSelect) :
    FilterCore where
  table := table
  node := .node (rangeOnly from_ until_ count select) [] []
  order := []
  limit := none
  offset := none
  wellFormed := .node _ _ _
    ⟨by simp [rangeOnly], by simp [rangeOnly], by simp [rangeOnly], by simp [rangeOnly],
      by simp [rangeOnly]⟩ (by simp) (by simp)

/-- A record of which only the instant matters. -/
def atInstant (dialect : SqlDialect) (t : Int) : Row := fun key =>
  if key = "timestamp" then timestampValue t dialect else .null

section Uncovered

variable {table : Table} {from_ until_ : Int} {count : Nat} {select : SubsampleSelect}
  {dialect : SqlDialect} {backend : Backend} {rows : List Row} {now : Int}

theorem timeBounds_rangeOnly :
    (rangeOnly from_ until_ count select).timeBounds now = (some from_, some until_) := rfl

/-- The range is all that the other conditions ask for. -/
theorem matching_rangeOnly {row : Row}
    (hwithin : within (spanBounds dialect (some from_) (some until_)) (row "timestamp")) :
    matching (ranged table from_ until_ count select) backend rows dialect now
      { rangeOnly from_ until_ count select with subsample := none } [] row = true := by
  rw [matching_iff]
  refine ⟨?_, by simp⟩
  show selects backend rows ([] ++ [] ++ table.schema.fields.flatMap _) row = true
  rw [List.nil_append, List.nil_append, selects_flatMap]
  intro f hf
  have hoperations : Conditions.operationConditions
      { rangeOnly from_ until_ count select with subsample := none } f dialect = [] := by
    rw [Conditions.operationConditions, List.flatMap_eq_nil_iff]
    intro operation _
    rfl
  by_cases hfamily : f.family = .timestamp
  · rw [timestampField_of_family table f hf hfamily]
    show selects backend rows
      [.compare .ge (.column "timestamp") (.value (timestampValue from_ dialect)),
        .compare .lt (.column "timestamp") (.value (timestampValue until_ dialect))] row = true
    have hge := hwithin (.ge, timestampValue from_ dialect) (by simp [spanBounds])
    have hlt := hwithin (.lt, timestampValue until_ dialect) (by simp [spanBounds])
    simp [selects, Condition.eval, Term.eval, hge, hlt]
  · unfold Conditions.fieldConditions
    rw [hoperations]
    cases hf' : f.family <;> first | rfl | exact absurd hf' hfamily

/-- The first instants of the buckets. -/
def bucketStarts (from_ width : Int) (count : Nat) : List Int :=
  (List.range (count + 1)).map fun i : Nat => from_ + (i : Int) * width

theorem bucketOf_bucketStart {from_ width : Int} (hwidth : 0 < width) (i : Int) :
    bucketOf from_ width (from_ + i * width) = i := by
  rw [bucketOf, add_sub_cancel_left, Int.mul_ediv_cancel i hwidth.ne']

/-- The instant a row of the table stands for. -/
def instantIn (dialect : SqlDialect) (instants : List Int) (row : Row) : Int :=
  (instants.find? fun t => timestampValue t dialect = row "timestamp").getD 0

theorem instantIn_atInstant {instants : List Int} {t : Int} (ht : t ∈ instants)
    (hyears : dialect = .sqliteText → ∀ u ∈ instants, InYears u) :
    instantIn dialect instants (atInstant dialect t) = t := by
  have hsome : (instants.find? fun u => timestampValue u dialect = atInstant dialect t "timestamp").isSome =
      true := by
    rw [List.find?_isSome]
    exact ⟨t, ht, by simp [atInstant]⟩
  obtain ⟨u, hu⟩ := Option.isSome_iff_exists.mp hsome
  have heq : timestampValue u dialect = timestampValue t dialect := by
    simpa [atInstant] using List.find?_some hu
  have hmem := List.mem_of_find?_eq_some hu
  rw [instantIn, hu, Option.getD_some]
  cases dialect with
  | postgres => simpa [timestampValue] using heq
  | sqliteText =>
    exact timestampText_injective (by simpa [timestampValue] using heq)

/-- **Where the buckets do not cover the range, some table gives more samples than asked for**: one
    record at the start of each bucket, no two at one instant. -/
theorem exceeds_count (hrecord : timestampField ∈ table.schema.fields) (hpositive : 0 < count)
    (hyears : dialect = .sqliteText → InYears from_ ∧ InYears until_)
    (hexact : ∀ (rows : List Row) (stamp : Row → Int),
      (∀ row ∈ rows, row "timestamp" = timestampValue (stamp row) dialect) →
      Stamped backend dialect rows stamp from_ (Conditions.countWidth from_ until_ count))
    (hcovered : ¬ Covered (until_ - from_) count) (place : String → Value → Value.Key) (addresses : List Text) :
    ∃ (rows : List Row) (stamp : Row → Int) (result : List Row),
      (∀ row ∈ rows, row "timestamp" = timestampValue (stamp row) dialect) ∧
      rows.Pairwise (fun row other => stamp row ≠ stamp other) ∧
      ((ranged table from_ until_ count select).listingStatement addresses dialect now).Returns backend
        place rows result ∧ count < result.length := by
  have hwidth : 0 < Conditions.countWidth from_ until_ count := countWidth_pos
  rw [covered_iff hpositive, not_le] at hcovered
  generalize hw : Conditions.countWidth from_ until_ count = width at *
  have hlength : (bucketStarts from_ width count).length = count + 1 := by
    rw [bucketStarts, List.length_map, List.length_range]
  have hne : (bucketStarts from_ width count).Pairwise (· ≠ ·) := by
    rw [bucketStarts, List.pairwise_map]
    refine (List.nodup_range (n := count + 1)).imp fun hij heq => ?_
    have hmul := add_left_cancel heq
    exact hij (Nat.cast_injective (mul_right_cancel₀ hwidth.ne' hmul))
  have hstarts : ∀ t ∈ bucketStarts from_ width count, t = from_ + bucketOf from_ width t * width := by
    intro t ht
    obtain ⟨i, -, rfl⟩ := List.mem_map.mp ht
    rw [bucketOf_bucketStart hwidth]
  have hrange : ∀ t ∈ bucketStarts from_ width count, from_ ≤ t ∧ t < until_ := by
    intro t ht
    obtain ⟨i, hi, rfl⟩ := List.mem_map.mp ht
    rw [List.mem_range] at hi
    have hlow : 0 ≤ (i : Int) * width := by positivity
    have hhigh : (i : Int) * width ≤ count * width := by gcongr; omega
    omega
  generalize bucketStarts from_ width count = instants at hlength hne hstarts hrange
  have hinYears : dialect = .sqliteText → ∀ t ∈ instants, InYears t := by
    intro hd t ht
    exact ⟨(hyears hd).1.1.trans (year_mono (hrange t ht).1),
      (year_mono (hrange t ht).2.le).trans (hyears hd).2.2⟩
  have hstamp : ∀ t ∈ instants, instantIn dialect instants (atInstant dialect t) = t :=
    fun t ht => instantIn_atInstant ht hinYears
  have hstored : ∀ row ∈ instants.map (atInstant dialect), row "timestamp" =
      timestampValue (instantIn dialect instants row) dialect := by
    intro row hrow
    obtain ⟨t, ht, rfl⟩ := List.mem_map.mp hrow
    rw [hstamp t ht]
    simp [atInstant]
  have hstamped : Stamped backend dialect (instants.map (atInstant dialect)) (instantIn dialect instants) from_
      (Conditions.countWidth from_ until_ count) := by
    rw [hw]
    exact hexact _ _ hstored
  have hselected : (instants.map (atInstant dialect)).filter (selects backend (instants.map (atInstant dialect))
      ((ranged table from_ until_ count select).node.combined table.schema dialect now)) =
      instants.map (atInstant dialect) := by
    rw [List.filter_eq_self]
    intro row hrow
    obtain ⟨t, ht, rfl⟩ := List.mem_map.mp hrow
    have hwithin : within (spanBounds dialect (some from_) (some until_)) (atInstant dialect t "timestamp") := by
      show within _ (timestampValue t dialect)
      rw [within_spanBounds_iff fun hd => ⟨hinYears hd t ht, hyears hd⟩]
      exact hrange t ht
    show matching (ranged table from_ until_ count select) backend _ dialect now
      (rangeOnly from_ until_ count select) [] (atInstant dialect t) = true
    rw [matching_count hrecord rfl timeBounds_rangeOnly hstamped hrow]
    refine ⟨matching_rangeOnly hwithin, hwithin, ?_⟩
    intro other hother _ hbucket
    obtain ⟨u, hu, rfl⟩ := List.mem_map.mp hother
    rw [hw, hstamp t ht, hstamp u hu] at hbucket
    rw [hstarts t ht, hstarts u hu, hbucket]
    exact leads_refl _ _
  obtain ⟨result, hreturns⟩ := FilterCore.exists_returns (ranged table from_ until_ count select) rfl rfl
    backend place (instants.map (atInstant dialect)) addresses dialect now
  refine ⟨_, _, result, hstored, ?_, hreturns, ?_⟩
  · rw [List.pairwise_map]
    refine hne.imp_of_mem fun ht hu hdiffer => ?_
    rwa [hstamp _ ht, hstamp _ hu]
  · have hperm := ((FilterCore.returns_iff rfl rfl).mp hreturns).1
    rw [hperm.length_eq.trans (congrArg List.length hselected), List.length_map, hlength]
    exact Nat.lt_succ_self count

end Uncovered

/-- **What bounds a subsampled listing.** With `subsample_every` there is one row for each bucket exactly
    when no two matching rows share a sample's timestamp. With `subsample` there are no more rows than
    asked for when that holds and the buckets cover the range; and a range they do not cover is
    exceeded by the listing of some table without two records at one instant. -/
theorem samples_bounded_iff {filter : FilterCore} {backend : Backend}
    {place : String → Value → Value.Key} {rows result : List Row} {addresses : List Text}
    {dialect : SqlDialect} {now : Int} {own : Conditions} {andChildren : List FilterNode}
    (hrecord : timestampField ∈ filter.table.schema.fields)
    (hnode : filter.node = .node own andChildren []) (hlimit : filter.limit = none)
    (hoffset : filter.offset = none)
    (hreturns : (filter.listingStatement addresses dialect now).Returns backend place rows result) :
    (∀ (every : Int) (stamp : Row → Int), own.subsampleEvery = some every →
      Stamped backend dialect rows stamp (own.origin now) (max every 1) →
      (result.Pairwise (fun row other => bucketOf (own.origin now) (max every 1) (stamp row) ≠
          bucketOf (own.origin now) (max every 1) (stamp other)) ↔
        Untied dialect rows stamp (own.origin now) (max every 1) (own.timeBounds now).1
          (own.timeBounds now).2 (own.subsampleSelect.getD .first)
          (matching filter backend rows dialect now { own with subsampleEvery := none } andChildren))) ∧
    (∀ (count : Nat) (from_ until_ : Int) (stamp : Row → Int), own.subsample = some count → 0 < count →
      own.timeBounds now = (some from_, some until_) →
      Stamped backend dialect rows stamp from_ (Conditions.countWidth from_ until_ count) →
      (dialect = .sqliteText → (∀ row ∈ rows, InYears (stamp row)) ∧ (dateOf from_).year ≤ 9999) →
      Untied dialect rows stamp from_ (Conditions.countWidth from_ until_ count) (some from_)
        (some until_) (own.subsampleSelect.getD .first)
        (matching filter backend rows dialect now { own with subsample := none } andChildren) →
      Covered (until_ - from_) count → result.length ≤ count) ∧
    ∀ (count : Nat) (from_ until_ : Int) (select : SubsampleSelect), 0 < count →
      (dialect = .sqliteText → InYears from_ ∧ InYears until_) →
      (∀ (rows : List Row) (stamp : Row → Int),
        (∀ row ∈ rows, row "timestamp" = timestampValue (stamp row) dialect) →
        Stamped backend dialect rows stamp from_ (Conditions.countWidth from_ until_ count)) →
      ¬ Covered (until_ - from_) count →
      ∃ (rows : List Row) (stamp : Row → Int) (result : List Row),
        (∀ row ∈ rows, row "timestamp" = timestampValue (stamp row) dialect) ∧
        rows.Pairwise (fun row other => stamp row ≠ stamp other) ∧
        ((ranged filter.table from_ until_ count select).listingStatement addresses dialect
          now).Returns backend place rows result ∧
        count < result.length := by
  refine ⟨fun every stamp hevery hstamped => ?_, ?_, ?_⟩
  · have hperm := ((FilterCore.returns_iff hlimit hoffset).mp hreturns).1
    rw [hnode] at hperm
    rw [apart_perm hperm]
    exact samples_apart_iff (by omega) hstamped fun row hrow =>
      matching_every hrecord hevery hstamped hrow
  · intro count from_ until_ stamp hcount hpositive hbounds hstamped hyears huntied hcovered
    exact length_le_count hrecord hnode hlimit hoffset hreturns hcount hpositive hbounds hstamped hyears
      huntied hcovered
  · intro count from_ until_ select hpositive hyears hexact hcovered
    exact exceeds_count hrecord hpositive hyears hexact hcovered place addresses

/-- Two records at the start of five ranges of two microseconds. -/
theorem five_of_ten_bounded : ∃ result : List Row,
    ((ranged .logs 0 10 5 .first).listingStatement [] .postgres 0).Returns
        (SqlDialect.postgres.backend Char.toLower dateBin) (fun _ v => v.key)
        [logAt 0 "info".toList, logAt 1 "info".toList] result ∧
      result.length ≤ 5 := by
  obtain ⟨result, hreturns⟩ := FilterCore.exists_returns (ranged .logs 0 10 5 .first) rfl rfl
    (SqlDialect.postgres.backend Char.toLower dateBin) (fun _ v => v.key)
    [logAt 0 "info".toList, logAt 1 "info".toList] [] .postgres 0
  exact ⟨result, hreturns, (samples_bounded_iff (by decide) rfl rfl rfl hreturns).2.1 5 0 10 stampOf rfl
    (by decide) rfl (dateBin_stamped [(0, "info".toList), (1, "info".toList)] 2) (by simp)
    (by decide) (by decide)⟩

/-- Ten microseconds in four samples: the width is two, and there are five. -/
theorem four_of_ten_exceeded : ∃ result : List Row,
    ((ranged .logs 0 10 4 .first).listingStatement [] .postgres 0).Returns
        (SqlDialect.postgres.backend Char.toLower dateBin) (fun _ v => v.key)
        ([0, 2, 4, 6, 8].map fun t => logAt t "info".toList) result ∧
      4 < result.length := by
  obtain ⟨result, hreturns⟩ := FilterCore.exists_returns (ranged .logs 0 10 4 .first) rfl rfl
    (SqlDialect.postgres.backend Char.toLower dateBin) (fun _ v => v.key)
    ([0, 2, 4, 6, 8].map fun t => logAt t "info".toList) [] .postgres 0
  refine ⟨result, hreturns, ?_⟩
  rw [((FilterCore.returns_iff rfl rfl).mp hreturns).1.length_eq]
  decide

end Ceres.Database
