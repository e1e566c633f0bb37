/-
  File:      Ceres/Database/TextOrder.lean
  Subject:   THE ORDER OF STORED TIMESTAMPS (`rust/ceres-database/src/store.rs`: `Parameter::timestamp_text`;
             `filter.rs`: `parse_timestamp`, `timespan_bounds`, `window_conditions`, `bucket_condition`).

  SQLite compares timestamps by their texts, and these are in the order of time where the years of the
  instants are (`YearsOrdered`).

  * `storedKey_ordered` -- so are the values that are compared, there and nowhere else;
  * `parseTimestamp`, `parsed_ordered` -- of the parsed instants only those of the year 10000 are out of order;
  * `windowChecks`, `timestampMatches_true` -- what a node compares a timestamp with, and the matcher's answer;
  * **`stored_text_orders_iff`** -- where the texts are in order, the conditions mean what the matcher does.
-/
import Ceres.Database.Ranges

namespace Ceres.Database

open Ceres.Library
open Ceres.Library.Sql

/-! ## 1. Keys -/

/-- What SQLite compares timestamps by. -/
def storedKey (t : Int) : Value.Key := (timestampValue t .sqliteText).key

theorem storedKey_before {t u : Int} (h : t < u) :
    (YearsOrdered t u → storedKey t < storedKey u) ∧ (¬ YearsOrdered t u → storedKey u < storedKey t) :=
  ⟨fun ho => text_key_lt.mpr ((timestampText_before h).1 ho),
    fun ho => text_key_lt.mpr ((timestampText_before h).2 ho)⟩

/-- **The texts of two instants are in the order of time exactly when their years are.** -/
theorem storedKey_ordered (t u : Int) : cmp (storedKey t) (storedKey u) = cmp t u ↔ YearsOrdered t u := by
  rcases lt_trichotomy t u with hlt | rfl | hgt
  · rw [(cmp_eq_lt_iff t u).mpr hlt, cmp_eq_lt_iff]
    refine ⟨fun hkeys => ?_, (storedKey_before hlt).1⟩
    by_contra ho
    exact lt_asymm hkeys ((storedKey_before hlt).2 ho)
  · rw [(cmp_eq_eq_iff t t).mpr rfl, cmp_eq_eq_iff]
    exact iff_of_true rfl (.refl t)
  · rw [(cmp_eq_gt_iff t u).mpr hgt, cmp_eq_gt_iff]
    refine ⟨fun hkeys => ?_, fun ho => (storedKey_before hgt).1 ho.symm⟩
    by_contra ho
    exact lt_asymm hkeys ((storedKey_before hgt).2 fun hs => ho hs.symm)

theorem storedKey_lt_iff (t u : Int) :
    ((storedKey t < storedKey u ↔ t < u) ∧ (storedKey u < storedKey t ↔ u < t)) ↔ YearsOrdered t u := by
  constructor
  · intro h
    by_contra ho
    rcases lt_trichotomy t u with hlt | rfl | hgt
    · exact lt_asymm hlt (h.2.mp ((storedKey_before hlt).2 ho))
    · exact ho (.refl t)
    · exact lt_asymm hgt (h.1.mp ((storedKey_before hgt).2 fun hs => ho hs.symm))
  · intro ho
    have hcmp := (storedKey_ordered t u).mpr ho
    exact ⟨lt_iff_lt_of_cmp_eq_cmp hcmp, lt_iff_lt_of_cmp_eq_cmp (cmp_eq_cmp_symm.mp hcmp)⟩

/-! ## 2. Parsed instants -/

/-- A date and time as the `speedate` crate reads it: its whole seconds since the epoch, the offset taken
    off, and the microseconds behind them. -/
structure SpeedateDateTime where
  timestampTz : Int
  microsecond : Nat

section Parse

variable (dateTime : Text → Option SpeedateDateTime) (date : Text → Option Date)

/-- The midnight of a date, unless the calendar has none such. -/
def midnight (date : Date) : Option Int :=
  if civil (daysOf date) = date then some (daysOf date * DAY) else none

/-- A date and time, or a bare date, which reads as midnight. -/
def parseTimestamp (text : Text) : Option Int :=
  ((dateTime text).bind fun read => instant (read.timestampTz * 1000000 + read.microsecond)) <|>
    (date text).bind midnight

/-- What `speedate` documents: years of four digits, and offsets of less than a day. -/
structure SpeedateYears : Prop where
  dateTime : ∀ text read, dateTime text = some read →
    (daysOf ⟨0, 1, 1⟩ - 1) * 86400 ≤ read.timestampTz ∧ read.timestampTz < (daysOf ⟨10000, 1, 1⟩ + 1) * 86400 ∧
      read.microsecond < 1000000
  date : ∀ text read, date text = some read → 0 ≤ read.year ∧ read.year ≤ 9999

variable {dateTime date}

/-- The offset may lead a day behind the years. -/
theorem parseTimestamp_years (h : SpeedateYears dateTime date) {text : Text} {t : Int}
    (ht : parseTimestamp dateTime date text = some t) : -1 ≤ (dateOf t).year ∧ (dateOf t).year ≤ 10000 := by
  rw [parseTimestamp, Option.orElse_eq_some] at ht
  rcases ht with hread | ⟨-, hread⟩
  · obtain ⟨read, hdateTime, hinstant⟩ := Option.bind_eq_some_iff.mp hread
    obtain ⟨hfirst, hlast, hmicro⟩ := h.dateTime text read hdateTime
    have ht := instant_eq_some hinstant
    have hnumbers : daysOf ⟨0, 1, 1⟩ = -719528 ∧ daysOf ⟨10000, 1, 1⟩ = 2932897 := by decide
    rw [hnumbers.1] at hfirst
    rw [hnumbers.2] at hlast
    have hlower : (-719529) * DAY ≤ t := by unfold DAY; omega
    have hupper : t ≤ 2932897 * DAY + 86399999999 := by unfold DAY; omega
    have hfirstYear : (dateOf ((-719529) * DAY)).year = -1 := by decide
    have hlastYear : (dateOf (2932897 * DAY + 86399999999)).year = 10000 := by decide
    exact ⟨hfirstYear ▸ year_mono hlower, hlastYear ▸ year_mono hupper⟩
  · obtain ⟨read, hdate, hmidnight⟩ := Option.bind_eq_some_iff.mp hread
    obtain ⟨hfirst, hlast⟩ := h.date text read hdate
    unfold midnight at hmidnight
    split at hmidnight
    · rename_i hcivil
      have hday : daysOf read * DAY / DAY = daysOf read := Int.mul_ediv_cancel _ (by decide)
      rw [← Option.some.inj hmidnight, dateOf, hday, hcivil]
      omega
    · cases hmidnight

/-- **Of the parsed instants only those of the year 10000 are out of order**, with the others. -/
theorem parsed_ordered (h : SpeedateYears dateTime date) {text text' : Text} {t u : Int}
    (ht : parseTimestamp dateTime date text = some t) (hu : parseTimestamp dateTime date text' = some u) :
    YearsOrdered t u ↔ ((dateOf t).year = 10000 ↔ (dateOf u).year = 10000) := by
  obtain ⟨ht₀, ht₁⟩ := parseTimestamp_years h ht
  obtain ⟨hu₀, hu₁⟩ := parseTimestamp_years h hu
  have horder : ∀ {y z : Int}, -1 ≤ y → y < z → z ≤ 10000 → (InOrder y z ↔ z ≠ 10000) := by
    intro y z hy hyz hz
    unfold InOrder
    constructor
    · rintro (hplain | ⟨hplus, -⟩ | ⟨hminus, -⟩) <;> omega
    · exact fun hne => .inl (by omega)
  constructor
  · intro ho
    rcases lt_trichotomy (dateOf t).year (dateOf u).year with hlt | heq | hgt
    · have := (horder ht₀ hlt hu₁).mp (ho.1 hlt)
      omega
    · rw [heq]
    · have := (horder hu₀ hgt ht₁).mp (ho.2 hgt)
      omega
  · intro hboth
    exact ⟨fun hlt => (horder ht₀ hlt hu₁).mpr (by omega), fun hgt => (horder hu₀ hgt ht₁).mpr (by omega)⟩

end Parse

/-! ## 3. Comparisons -/

theorem compareValues_stored (op : Comparison) (t u : Int) :
    compareValues op (timestampValue t .sqliteText) (timestampValue u .sqliteText) =
      some (op.accepts (cmp (storedKey t) (storedKey u))) :=
  if_neg (not_or.mpr ⟨timestampValue_ne_null _ _, timestampValue_ne_null _ _⟩)

/-- An operator that is about the order tells the orders apart that are each other's reverse. -/
theorem accepts_reversed {op : Comparison} (heq : op ≠ .eq) (hne : op ≠ .ne) :
    op.accepts .lt ≠ op.accepts .gt := by
  cases op with
  | eq => exact absurd rfl heq
  | ne => exact absurd rfl hne
  | lt => decide
  | le => decide
  | gt => decide
  | ge => decide

/-- **One comparison of stored timestamps** says what it says of the instants: an equality always does, the
    others where the years are in order. -/
theorem accepts_stored (op : Comparison) (t u : Int) :
    op.accepts (cmp (storedKey t) (storedKey u)) = op.accepts (cmp t u) ↔
      op = .eq ∨ op = .ne ∨ YearsOrdered t u := by
  by_cases ho : YearsOrdered t u
  · rw [(storedKey_ordered t u).mpr ho]
    exact iff_of_true rfl (.inr (.inr ho))
  · have hreversed : cmp t u = .lt ∧ cmp (storedKey t) (storedKey u) = .gt ∨
        cmp t u = .gt ∧ cmp (storedKey t) (storedKey u) = .lt := by
      rcases lt_trichotomy t u with hlt | rfl | hgt
      · exact .inl ⟨(cmp_eq_lt_iff _ _).mpr hlt, (cmp_eq_gt_iff _ _).mpr ((storedKey_before hlt).2 ho)⟩
      · exact absurd (.refl t) ho
      · exact .inr ⟨(cmp_eq_gt_iff _ _).mpr hgt,
          (cmp_eq_lt_iff _ _).mpr ((storedKey_before hgt).2 fun hs => ho hs.symm)⟩
    constructor
    · intro h
      by_contra hop
      rw [not_or, not_or] at hop
      have hapart := accepts_reversed hop.1 hop.2.1
      rcases hreversed with ⟨htime, hkeys⟩ | ⟨htime, hkeys⟩
      · rw [htime, hkeys] at h
        exact hapart h.symm
      · rw [htime, hkeys] at h
        exact hapart h
    · rintro (rfl | rfl | h)
      · rcases hreversed with ⟨htime, hkeys⟩ | ⟨htime, hkeys⟩ <;> rw [htime, hkeys] <;> rfl
      · rcases hreversed with ⟨htime, hkeys⟩ | ⟨htime, hkeys⟩ <;> rw [htime, hkeys] <;> rfl
      · exact absurd h ho

/-! ## 4. Windows -/

namespace Conditions

variable (own : Conditions)

/-- The instants a node compares a timestamp with. -/
def bounds (now : Int) : List Int :=
  own.after.toList ++ own.before.toList ++ (own.timespanBounds now).1.toList ++
    (own.timespanBounds now).2.toList ++ (own.maxAge.map (now - ·)).toList ++
    (own.minAge.map (now - ·)).toList

/-- The instants with the comparisons that the timestamp has to pass. -/
def windowChecks (now : Int) : List (Comparison × Int) :=
  (own.after.map (Comparison.ge, ·)).toList ++ (own.before.map (Comparison.lt, ·)).toList ++
    ((own.timespanBounds now).1.map (Comparison.ge, ·)).toList ++
    ((own.timespanBounds now).2.map (Comparison.lt, ·)).toList ++
    ((own.maxAge.map (now - ·)).map (Comparison.gt, ·)).toList ++
    ((own.minAge.map (now - ·)).map (Comparison.le, ·)).toList

/-- The instant lies in the node's window. -/
structure InWindow (now t : Int) : Prop where
  after : ∀ after ∈ own.after, after ≤ t
  before : ∀ before ∈ own.before, t < before
  start : ∀ start ∈ (own.timespanBounds now).1, start ≤ t
  end_ : ∀ end_ ∈ (own.timespanBounds now).2, t < end_
  oldest : ∀ oldest ∈ own.maxAge.map (now - ·), oldest < t
  youngest : ∀ youngest ∈ own.minAge.map (now - ·), t ≤ youngest

end Conditions

section Window

variable {own : Conditions} {now t : Int} {key : String}

theorem mem_bounds {b : Int} : b ∈ own.bounds now ↔ b ∈ own.after ∨ b ∈ own.before ∨
    b ∈ (own.timespanBounds now).1 ∨ b ∈ (own.timespanBounds now).2 ∨ b ∈ own.maxAge.map (now - ·) ∨
      b ∈ own.minAge.map (now - ·) := by
  simp only [Conditions.bounds, List.mem_append, Option.mem_toList, or_assoc]
  rfl

theorem windowChecks_bounds : (own.windowChecks now).map (·.2) = own.bounds now := by
  simp only [Conditions.windowChecks, Conditions.bounds, List.map_append]
  cases own.after <;> cases own.before <;> cases (own.timespanBounds now).1 <;>
    cases (own.timespanBounds now).2 <;> cases own.maxAge <;> cases own.minAge <;> rfl

theorem windowConditions_checks (dialect : SqlDialect) :
    own.windowConditions key now dialect = (own.windowChecks now).map fun check =>
      Condition.compare check.1 (.column key) (.value (timestampValue check.2 dialect)) := by
  simp only [Conditions.windowChecks, Conditions.windowConditions, List.map_append]
  cases own.after <;> cases own.before <;> cases (own.timespanBounds now).1 <;>
    cases (own.timespanBounds now).2 <;> cases own.maxAge <;> cases own.minAge <;> rfl

/-- None of them asks for equality. -/
theorem windowChecks_order : ∀ check ∈ own.windowChecks now, check.1 ≠ .eq ∧ check.1 ≠ .ne := by
  have hone : ∀ (op : Comparison) (bound : Option Int), op ≠ .eq ∧ op ≠ .ne →
      ∀ check ∈ (bound.map (op, ·)).toList, check.1 ≠ .eq ∧ check.1 ≠ .ne := by
    intro op bound hop check hcheck
    obtain ⟨b, -, rfl⟩ := Option.map_eq_some_iff.mp (Option.mem_toList.mp hcheck)
    exact hop
  intro check hcheck
  simp only [Conditions.windowChecks, List.mem_append] at hcheck
  rcases hcheck with ((((hcheck | hcheck) | hcheck) | hcheck) | hcheck) | hcheck
  all_goals exact hone _ _ (by decide) check hcheck

/-- What is asked of the bounds that are there. -/
theorem forall_mem_bound {α β : Type} {f : α → β} {p : β → Prop} {q : α → Prop} (bound : Option α)
    (h : ∀ b ∈ bound, (p (f b) ↔ q b)) : (∀ c ∈ (bound.map f).toList, p c) ↔ ∀ b ∈ bound, q b := by
  cases bound with
  | none => simp
  | some b => simpa using h b rfl

theorem accepts_iff (t b : Int) : (Comparison.ge.accepts (cmp t b) = true ↔ b ≤ t) ∧
    (Comparison.lt.accepts (cmp t b) = true ↔ t < b) ∧ (Comparison.gt.accepts (cmp t b) = true ↔ b < t) ∧
    (Comparison.le.accepts (cmp t b) = true ↔ t ≤ b) := by
  rcases lt_trichotomy t b with hlt | rfl | hgt
  · rw [(cmp_eq_lt_iff _ _).mpr hlt]
    simp [Comparison.accepts, hlt, hlt.le, not_le.mpr hlt, not_lt.mpr hlt.le]
  · rw [(cmp_eq_eq_iff _ _).mpr rfl]
    simp [Comparison.accepts]
  · rw [(cmp_eq_gt_iff _ _).mpr hgt]
    simp [Comparison.accepts, hgt, hgt.le, not_le.mpr hgt, not_lt.mpr hgt.le]

theorem inWindow_iff : own.InWindow now t ↔
    ∀ check ∈ own.windowChecks now, check.1.accepts (cmp t check.2) = true := by
  have hone {q : Int → Prop} (op : Comparison) (h : ∀ b, op.accepts (cmp t b) = true ↔ q b) (bound : Option Int) :=
    forall_mem_bound bound (f := (op, ·)) (p := fun check => check.1.accepts (cmp t check.2) = true) fun b _ => h b
  have hge := hone .ge fun b => (accepts_iff t b).1
  have hlt := hone .lt fun b => (accepts_iff t b).2.1
  have hgt := hone .gt fun b => (accepts_iff t b).2.2.1
  have hle := hone .le fun b => (accepts_iff t b).2.2.2
  rw [Conditions.windowChecks]
  iterate 5 rw [List.forall_mem_append]
  rw [hge, hlt, hge, hlt, hgt, hle]
  constructor
  · intro h
    exact ⟨⟨⟨⟨⟨h.after, h.before⟩, h.start⟩, h.end_⟩, h.oldest⟩, h.youngest⟩
  · intro h
    obtain ⟨⟨⟨⟨⟨hafter, hbefore⟩, hstart⟩, hend⟩, hold⟩, hyoung⟩ := h
    exact ⟨hafter, hbefore, hstart, hend, hold, hyoung⟩

theorem ageBound_of_instant {age : Option Int} (h : ∀ b ∈ age.map (now - ·), instant b = some b) :
    ageBound now age = some (age.map (now - ·)) := by
  cases age with
  | none => rfl
  | some age =>
    rw [ageBound, h (now - age) (by simp)]
    rfl

theorem spanBound_mem {timespan : Int} (h : own.timespan = some timespan) :
    own.spanBound now timespan ∈ own.bounds now := by
  rw [mem_bounds]
  unfold Conditions.spanBound Conditions.timespanBounds
  rw [h]
  cases own.after with
  | some after => exact .inr (.inr (.inr (.inl rfl)))
  | none =>
    cases own.before with
    | some before => exact .inr (.inr (.inl rfl))
    | none => exact .inr (.inr (.inl rfl))

theorem checkedTimespanBounds_of_instant (h : ∀ b ∈ own.bounds now, instant b = some b) :
    own.checkedTimespanBounds now = some (own.timespanBounds now) := by
  cases htimespan : own.timespan with
  | none => exact checkedTimespanBounds_none htimespan
  | some timespan =>
    rw [checkedTimespanBounds_some htimespan, h _ (spanBound_mem htimespan)]
    rfl

theorem refused_iff {c : Bool} {answer : Option Bool} :
    (if c then some false else answer) = some true ↔ c = false ∧ answer = some true := by
  cases c <;> simp

theorem any_eq_false_iff {bound : Option Int} {p : Int → Prop} [DecidablePred p] :
    (bound.any fun b => decide (p b)) = false ↔ ∀ b ∈ bound, ¬ p b := by
  cases bound <;> simp

/-- **What the matcher says of a timestamp**: it lies in the window, and in both windows of the clock. -/
theorem timestampMatches_true (h : ∀ b ∈ own.bounds now, instant b = some b) :
    own.timestampMatches t now = some true ↔ own.InWindow now t ∧
      clockHeld own.afterHour own.beforeHour 24 (hourOf t) = true ∧
      clockHeld own.afterMinute own.beforeMinute 60 (minuteOf t) = true := by
  have holdest : ageBound now own.maxAge = some (own.maxAge.map (now - ·)) :=
    ageBound_of_instant fun b hb => h b (mem_bounds.mpr (.inr (.inr (.inr (.inr (.inl hb))))))
  have hyoungest : ageBound now own.minAge = some (own.minAge.map (now - ·)) :=
    ageBound_of_instant fun b hb => h b (mem_bounds.mpr (.inr (.inr (.inr (.inr (.inr hb))))))
  unfold Conditions.timestampMatches
  rw [checkedTimespanBounds_of_instant h, holdest, hyoungest]
  simp only [Option.bind_some, Option.map_some, refused_iff, any_eq_false_iff, Option.some.injEq,
    Bool.and_eq_true, Bool.not_eq_true', not_lt, not_le]
  constructor
  · intro hall
    obtain ⟨hafter, hbefore, hstart, hend, hold, ⟨hyoung, hhour⟩, hminute⟩ := hall
    exact ⟨⟨hafter, hbefore, hstart, hend, hold, hyoung⟩, hhour, hminute⟩
  · intro hall
    obtain ⟨hwindow, hhour, hminute⟩ := hall
    exact ⟨hwindow.after, hwindow.before, hwindow.start, hwindow.end_, hwindow.oldest,
      ⟨hwindow.youngest, hhour⟩, hminute⟩

section Stored

variable {backend : Backend} {rows : List Row} {row : Row}

theorem eval_check (hrow : row key = timestampValue t .sqliteText) (check : Comparison × Int) :
    (Condition.compare check.1 (.column key) (.value (timestampValue check.2 .sqliteText))).eval backend rows
      row = some (check.1.accepts (cmp (storedKey t) (storedKey check.2))) := by
  show compareValues check.1 (row key) _ = _
  rw [hrow]
  exact compareValues_stored _ _ _

/-- **The conditions of the window say what the checks do** exactly when the years are in order. -/
theorem windowConditions_stored (hrow : row key = timestampValue t .sqliteText) :
    (own.windowConditions key now .sqliteText).map (·.eval backend rows row) =
        (own.windowChecks now).map (fun check => some (check.1.accepts (cmp t check.2))) ↔
      ∀ b ∈ own.bounds now, YearsOrdered t b := by
  rw [windowConditions_checks, List.map_map, List.map_inj_left, ← windowChecks_bounds, List.forall_mem_map]
  refine forall₂_congr fun check hcheck => ?_
  obtain ⟨heq, hne⟩ := windowChecks_order check hcheck
  show Condition.eval backend rows row _ = _ ↔ _
  rw [eval_check hrow, Option.some.injEq, accepts_stored]
  simp [heq, hne]

theorem windowConditions_true (hrow : row key = timestampValue t .sqliteText)
    (h : ∀ b ∈ own.bounds now, YearsOrdered t b) :
    selects backend rows (own.windowConditions key now .sqliteText) row = true ↔ own.InWindow now t := by
  rw [selects_iff, windowConditions_checks, List.forall_mem_map, inWindow_iff]
  rw [← windowChecks_bounds, List.forall_mem_map] at h
  refine forall₂_congr fun check hcheck => ?_
  have hbound : YearsOrdered t check.2 := h check hcheck
  rw [eval_check hrow, (accepts_stored _ _ _).mpr (.inr (.inr hbound)), Option.some.injEq]

end Stored

end Window

/-! ## 5. Buckets -/

/-- The instant lies in the range of a subsampled listing. -/
def InSpan (start end_ : Option Int) (t : Int) : Prop := (∀ s ∈ start, s ≤ t) ∧ ∀ e ∈ end_, t < e

/-- The row is in the range, and the first or the last of its bucket there. -/
def SampleInTime (rows : List Row) (stamp : Row → Int) (origin width : Int) (start end_ : Option Int)
    (select : SubsampleSelect) (row : Row) : Prop :=
  InSpan start end_ (stamp row) ∧
    ∀ other ∈ rows, InSpan start end_ (stamp other) →
      bucketOf origin width (stamp other) = bucketOf origin width (stamp row) →
      if select = .last then stamp other ≤ stamp row else stamp row ≤ stamp other

section Bucket

variable {backend : Backend} {rows : List Row} {stamp : Row → Int} {origin width t u : Int}
  {start end_ : Option Int} {select : SubsampleSelect} {row : Row}

theorem compareValues_ordered {op : Comparison} (h : YearsOrdered t u) :
    compareValues op (timestampValue t .sqliteText) (timestampValue u .sqliteText) = some true ↔
      op.accepts (cmp t u) = true := by
  rw [compareValues_stored, (accepts_stored _ _ _).mpr (.inr (.inr h)), Option.some.injEq]

theorem within_ordered (hstart : ∀ s ∈ start, YearsOrdered t s) (hend : ∀ e ∈ end_, YearsOrdered t e) :
    within (spanBounds .sqliteText start end_) (timestampValue t .sqliteText) ↔ InSpan start end_ t := by
  have hone (op : Comparison) (bound : Option Int) (hbound : ∀ b ∈ bound, YearsOrdered t b) :=
    forall_mem_bound bound (f := fun b => (op, timestampValue b .sqliteText))
      (p := fun c => compareValues c.1 (timestampValue t .sqliteText) c.2 = some true)
      fun b hb => compareValues_ordered (hbound b hb)
  unfold within spanBounds InSpan
  rw [List.forall_mem_append, hone .ge start hstart, hone .lt end_ hend]
  refine and_congr (forall₂_congr fun s _ => (accepts_iff t s).1) (forall₂_congr fun e _ => (accepts_iff t e).2.1)

theorem leads_ordered (h : YearsOrdered t u) :
    leads (select = .last) (timestampValue t .sqliteText) (timestampValue u .sqliteText) ↔
      if select = .last then u ≤ t else t ≤ u := by
  rw [← compareValues_leads (timestampValue_ne_null _ _) (timestampValue_ne_null _ _), compareValues_ordered h]
  cases select with
  | first => exact (accepts_iff t u).2.2.2
  | last => exact (accepts_iff t u).1

/-- **The bucket condition keeps the samples in time** where the years are in order. -/
theorem bucketCondition_ordered (hwidth : 0 < width)
    (hstamped : Stamped backend .sqliteText rows stamp origin width) (hrow : row ∈ rows)
    (hrows : ∀ other ∈ rows, YearsOrdered (stamp row) (stamp other))
    (hstart : ∀ other ∈ rows, ∀ s ∈ start, YearsOrdered (stamp other) s)
    (hend : ∀ other ∈ rows, ∀ e ∈ end_, YearsOrdered (stamp other) e) :
    (Conditions.bucketCondition "timestamp" origin width start end_ select .sqliteText).eval backend rows row =
        some true ↔ SampleInTime rows stamp origin width start end_ select row := by
  have hwithin : ∀ other ∈ rows, within (spanBounds .sqliteText start end_) (other "timestamp") ↔
      InSpan start end_ (stamp other) := by
    intro other hother
    rw [hstamped.stored other hother]
    exact within_ordered (hstart other hother) (hend other hother)
  rw [bucketCondition_true hwidth hstamped hrow, IsSample, SampleInTime, hwithin row hrow]
  refine and_congr_right fun _ => forall₂_congr fun other hother => ?_
  rw [hwithin other hother, hstamped.stored row hrow, hstamped.stored other hother,
    leads_ordered (hrows other hother)]

end Bucket

/-! ## 6. What the texts mean -/

/-- **Stored texts order as the instants do exactly when their years are in order.** There the comparisons
    say the same of the texts and the instants; so do the conditions of a window, of which the matcher's answer
    is made; and a bucket's condition keeps the samples in time. -/
theorem stored_text_orders_iff (t u : Int) :
    ((timestampText t < timestampText u ↔ t < u) ∧ (timestampText u < timestampText t ↔ u < t) ↔
      YearsOrdered t u) ∧
    (∀ op : Comparison, compareValues op (timestampValue t .sqliteText) (timestampValue u .sqliteText) =
        some (op.accepts (cmp t u)) ↔ op = .eq ∨ op = .ne ∨ YearsOrdered t u) ∧
    (∀ (own : Conditions) (now : Int),
      (∀ (key : String) (backend : Backend) (rows : List Row) (row : Row),
        row key = timestampValue t .sqliteText →
        ((own.windowConditions key now .sqliteText).map (·.eval backend rows row) =
            (own.windowChecks now).map (fun check => some (check.1.accepts (cmp t check.2))) ↔
          ∀ b ∈ own.bounds now, YearsOrdered t b)) ∧
      ((∀ b ∈ own.bounds now, instant b = some b) →
        (own.timestampMatches t now = some true ↔
          (∀ check ∈ own.windowChecks now, check.1.accepts (cmp t check.2) = true) ∧
            clockHeld own.afterHour own.beforeHour 24 (hourOf t) = true ∧
            clockHeld own.afterMinute own.beforeMinute 60 (minuteOf t) = true))) ∧
    ∀ (backend : Backend) (rows : List Row) (stamp : Row → Int) (origin width : Int) (start end_ : Option Int)
      (select : SubsampleSelect) (row : Row), 0 < width →
      Stamped backend .sqliteText rows stamp origin width → row ∈ rows →
      (∀ other ∈ rows, YearsOrdered (stamp row) (stamp other)) →
      (∀ other ∈ rows, (∀ s ∈ start, YearsOrdered (stamp other) s) ∧ ∀ e ∈ end_, YearsOrdered (stamp other) e) →
      ((Conditions.bucketCondition "timestamp" origin width start end_ select .sqliteText).eval backend rows
          row = some true ↔ SampleInTime rows stamp origin width start end_ select row) := by
  refine ⟨?_, ?_, ?_, ?_⟩
  · rw [← @text_key_lt (timestampText t), ← @text_key_lt (timestampText u)]
    exact storedKey_lt_iff t u
  · intro op
    rw [compareValues_stored, Option.some.injEq, accepts_stored]
  · intro own now
    refine ⟨fun key backend rows row hrow => windowConditions_stored hrow, fun hbounds => ?_⟩
    rw [timestampMatches_true hbounds, inWindow_iff]
  · intro backend rows stamp origin width start end_ select row hwidth hstamped hrow hrows hspan
    exact bucketCondition_ordered hwidth hstamped hrow hrows (fun other hother => (hspan other hother).1)
      fun other hother => (hspan other hother).2

/-- A table of one row, stored at the epoch. -/
def epochRow : Row := fun _ => timestampValue 0 .sqliteText

def plainBackend : Backend := { fold := id, lower := id, escape := none, call := fun _ _ => .integer 0 }

/-- Windows that start at the epoch. -/
def sinceEpoch : Conditions := { after := some 0 }

/-- The epoch and the day behind it. -/
theorem epoch_in_order :
    (timestampText 0 < timestampText DAY ↔ (0 : Int) < DAY) ∧
    compareValues .lt (timestampValue 0 .sqliteText) (timestampValue DAY .sqliteText) = some true ∧
    (sinceEpoch.windowConditions "timestamp" DAY .sqliteText).map (·.eval plainBackend [epochRow] epochRow) =
      [some true] ∧
    sinceEpoch.timestampMatches 0 DAY = some true ∧
    (Conditions.bucketCondition "timestamp" 0 1 (some 0) (some DAY) .first .sqliteText).eval plainBackend
      [epochRow] epochRow = some true := by
  have hyears : YearsOrdered 0 DAY := by decide
  obtain ⟨htext, hcompare, hwindow, hbucket⟩ := stored_text_orders_iff 0 DAY
  have hbounds : ∀ b ∈ sinceEpoch.bounds DAY, b = 0 := by simp [Conditions.bounds, sinceEpoch, Conditions.timespanBounds]
  obtain ⟨hconditions, hmatches⟩ := hwindow sinceEpoch DAY
  refine ⟨(htext.mpr hyears).1, (hcompare .lt).mpr (.inr (.inr hyears)), ?_, ?_, ?_⟩
  · exact (hconditions "timestamp" plainBackend [epochRow] epochRow rfl).mpr fun b hb => by
      rw [hbounds b hb]
      exact .refl 0
  · refine (hmatches fun b hb => ?_).mpr ⟨by decide, by decide, by decide⟩
    rw [hbounds b hb]
    rfl
  · have hstamped : Stamped plainBackend .sqliteText [epochRow] (fun _ => 0) 0 1 :=
      ⟨fun row hrow => by rw [List.mem_singleton.mp hrow]; rfl, fun row _ => rfl⟩
    refine (hbucket plainBackend [epochRow] (fun _ => 0) 0 1 (some 0) (some DAY) .first epochRow (by decide)
      hstamped (List.mem_singleton_self _) (fun _ _ => .refl 0) fun _ _ => ⟨?_, ?_⟩).mpr ⟨⟨?_, ?_⟩, ?_⟩
    · rintro s ⟨⟩
      exact .refl 0
    · rintro e ⟨⟩
      exact hyears
    · rintro s ⟨⟩
      exact le_refl 0
    · rintro e ⟨⟩
      decide
    · exact fun _ _ _ _ => le_refl 0

/-- The midnight before the last day of the year 9999. -/
def LAST_DAY : Int := daysOf ⟨9999, 12, 31⟩ * DAY

/-- `after=9999-12-31` and `timespan=P1D`. -/
def lastDay : Conditions := { after := some LAST_DAY, timespan := some DAY }

/-- **A window that ends with the year 9999 is empty**: its end is stored with a plus, in front of every row. -/
theorem last_day_out_of_order :
    (∀ (F : Type) (cleaned : Text → Text) (floats : Floats F),
      (applyWindow (fun _ => none) cleaned floats (parseTimestamp (fun _ => none) fun _ => some ⟨9999, 12, 31⟩) {}
        .after "9999-12-31".toList).bind (fun own =>
          applyWindow (fun _ => some ⟨true, 1, 0, 0⟩) cleaned floats (fun _ => none) own .timespan "P1D".toList) =
        some lastDay) ∧
    (lastDay.timespanBounds 0).2 = some (LAST_DAY + DAY) ∧
    LAST_DAY < LAST_DAY + DAY ∧ timestampText (LAST_DAY + DAY) < timestampText LAST_DAY ∧
    lastDay.timestampMatches LAST_DAY 0 = some true ∧
    ∀ (backend : Backend) (rows : List Row) (row : Row), row "timestamp" = timestampValue LAST_DAY .sqliteText →
      selects backend rows (lastDay.windowConditions "timestamp" 0 .sqliteText) row = false := by
  have hlt : LAST_DAY < LAST_DAY + DAY := by decide
  have hyears : ¬ YearsOrdered LAST_DAY (LAST_DAY + DAY) := by decide
  refine ⟨fun F cleaned floats => by rfl, by rfl, hlt, (timestampText_before hlt).2 hyears, by decide, ?_⟩
  intro backend rows row hrow
  rw [Bool.eq_false_iff]
  intro hselects
  rw [selects_iff, windowConditions_checks, List.forall_mem_map] at hselects
  have hend := hselects (.lt, LAST_DAY + DAY) (by simp [Conditions.windowChecks, lastDay, Conditions.timespanBounds])
  rw [eval_check hrow (.lt, LAST_DAY + DAY), Option.some.injEq] at hend
  have hkeys : storedKey LAST_DAY < storedKey (LAST_DAY + DAY) := by
    rwa [← cmp_eq_lt_iff, ← beq_iff_eq]
  exact lt_asymm hkeys ((storedKey_before hlt).2 hyears)

end Ceres.Database
