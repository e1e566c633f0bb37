/-
  File:      Ceres/Exporter/Span.lean
  Subject:   PERIODS AND RANGES OF AN EXPORTER (`exporter.py`: `period_start`, `period_shift`,
             `periods`, `effective_span`, `span_files`, `_before_history`, `decide`).

  An instant is a number of microseconds since the epoch. An exporter's files each cover one period;
  a run covers the files a range selects and decides about each one.

  * `periodStart`, `periodShift`, `periods` -- the periods;
  * `effectiveSpan`, `spanFiles` -- the files of a run; `spanFiles_within` -- what a run selects of a
    file starts no earlier than the file;
  * `beforeHistory`, `ExportConflict.decide` -- the guard of a rewrite.
-/
import Ceres.Database.Timestamp

namespace Ceres.Exporter

open Ceres.Library Ceres.Database

/-! ## 1. Periods -/

inductive ExporterPeriod where
  | hour | day | month | all
  deriving DecidableEq, Repr

/-- Microseconds of an hour. -/
def HOUR : Int := 3600000000

/-- The least difference of two instants. -/
def TICK : Int := 1

/-- `datetime.min`, the first instant of the year 1. -/
def datetimeMin : Int := daysOf { year := 1, month := 1, day := 1 } * DAY

def periodStart : ExporterPeriod → Int → Int
  | .hour, moment => moment / HOUR * HOUR
  | .day, moment => moment / DAY * DAY
  | .month, moment => daysOf { dateOf moment with day := 1 } * DAY
  | .all, _ => datetimeMin

/-- The date `count` months later, its day kept. -/
def shiftMonths (date : Date) (count : Int) : Date :=
  let months := date.year * 12 + date.month - 1 + count
  { date with year := months / 12, month := (months % 12 + 1).toNat }

/-- The start of the period `count` periods after the one that starts at `start`. -/
def periodShift : ExporterPeriod → Int → Int → Int
  | .hour, start, count => start + HOUR * count
  | .day, start, count => start + DAY * count
  | .month, start, count => daysOf (shiftMonths (dateOf start) count) * DAY + timeOf start
  | .all, start, _ => start

/-- The loop of `periods`, with a bound on its turns. -/
def periodsFrom (period : ExporterPeriod) (before : Int) : Nat → Int → List (Int × Int)
  | 0, _ => []
  | fuel + 1, start =>
    if start < before then
      (start, periodShift period start 1) ::
        periodsFrom period before fuel (periodShift period start 1)
    else []

/-- The start and the end of every period that overlaps a range, open for `all`. -/
def periods (period : ExporterPeriod) (after before : Int) : List (Option Int × Option Int) :=
  if period = .all then [(none, none)]
  else
    (periodsFrom period before (before - periodStart period after).toNat
      (periodStart period after)).map fun bounds => (some bounds.1, some bounds.2)

theorem daysOf_shiftMonths {date : Date} (h : 1 ≤ date.month ∧ date.month ≤ 12) :
    daysOf date + 28 ≤ daysOf (shiftMonths date 1) := by
  obtain ⟨year, month, day⟩ := date
  obtain ⟨hlow, hhigh⟩ := h
  simp only at hlow hhigh
  by_cases hlast : month = 12
  · subst hlast
    have hyear : (year * 12 + 12 - 1 + 1) / 12 = year + 1 := by omega
    have hmonth : ((year * 12 + 12 - 1 + 1) % 12 + 1).toNat = 1 := by omega
    simp only [daysOf, shiftMonths, Nat.cast_ofNat, hyear, hmonth]
    norm_num
    omega
  · have hyear : (year * 12 + month - 1 + 1) / 12 = year := by omega
    have hmonth : ((year * 12 + month - 1 + 1) % 12 + 1).toNat = month + 1 := by omega
    simp only [daysOf, shiftMonths, hyear, hmonth]
    by_cases hfeb : month = 2
    · subst hfeb
      norm_num
      omega
    · by_cases hjan : month = 1
      · subst hjan
        norm_num
        omega
      · rw [if_neg (by omega), if_neg (by omega), if_neg (by omega), if_neg (by omega)]
        omega

variable {period : ExporterPeriod}

theorem lt_periodShift (h : period ≠ .all) (start : Int) : start < periodShift period start 1 := by
  cases period with
  | hour => simp [periodShift, HOUR]
  | day => simp [periodShift, DAY]
  | month =>
    have hshift := daysOf_shiftMonths (civil_range (start / DAY)).1
    rw [daysOf_civil] at hshift
    have hstart := instant_eq start
    show start < daysOf (shiftMonths (civil (start / DAY)) 1) * DAY + timeOf start
    unfold DAY at *
    omega
  | all => exact absurd rfl h

/-! ## 2. The files of a run -/

inductive ExportRangeMode where
  | expand | exact | shrink
  deriving DecidableEq, Repr

/-- A range of time, an open bound `none`; the start is inclusive, the end is not. -/
structure ExportSpan where
  after : Option Int
  before : Option Int
  deriving DecidableEq, Repr

/-- What a query of the range selects. -/
def ExportSpan.holds (span : ExportSpan) (t : Int) : Bool :=
  span.after.all (fun after => decide (after ≤ t)) && span.before.all (fun before => decide (t < before))

/-- The part of a range before `through`, all of it without one. -/
def ExportSpan.through (span : ExportSpan) : Option Int → ExportSpan
  | none => span
  | some t =>
    match span.before with
    | none => ⟨span.after, some t⟩
    | some before => ⟨span.after, some (min before t)⟩

theorem ExportSpan.holds_of_through {span : ExportSpan} {through : Option Int} {t : Int}
    (h : (span.through through).holds t = true) : span.holds t = true := by
  cases through with
  | none => exact h
  | some limit =>
    cases hbefore : span.before with
    | none =>
      simp only [ExportSpan.through, hbefore, ExportSpan.holds, Bool.and_eq_true] at h ⊢
      exact ⟨h.1, rfl⟩
    | some before =>
      simp only [ExportSpan.through, hbefore, ExportSpan.holds, Bool.and_eq_true, Option.all_some,
        decide_eq_true_eq] at h ⊢
      exact ⟨h.1, lt_of_lt_of_le h.2 (min_le_left _ _)⟩

/-- The range a run covers, `none` for nothing. -/
def effectiveSpan (period : ExporterPeriod) (mode : ExportRangeMode) (after before : Int) :
    Option ExportSpan :=
  if period = .all then
    match mode with
    | .expand => some ⟨none, none⟩
    | .exact => some ⟨some after, some before⟩
    | .shrink => none
  else
    let first := periodStart period after
    let last := periodStart period before
    match mode with
    | .expand => some ⟨some first, some (if last = before then last else periodShift period last 1)⟩
    | .exact => some ⟨some after, some before⟩
    | .shrink =>
      let start := if first = after then first else periodShift period first 1
      if start < last then some ⟨some start, some last⟩ else none

/-- Each file's whole range, and the part of it a range selects, in the order of time. -/
def spanFiles (period : ExporterPeriod) (span : ExportSpan) : List (ExportSpan × ExportSpan) :=
  match span.after, span.before with
  | some after, some before =>
    if period = .all then [(⟨none, none⟩, span)]
    else
      (periodsFrom period before (before - periodStart period after).toNat
        (periodStart period after)).map fun bounds =>
          (⟨some bounds.1, some bounds.2⟩, ⟨some (max bounds.1 after), some (min bounds.2 before)⟩)
  | _, _ => [(⟨none, none⟩, span)]

/-- A record of the selected part lies at or after the start of the whole. -/
def Starts (file : ExportSpan × ExportSpan) : Prop :=
  ∀ a ∈ file.1.after, ∀ t, file.2.holds t → a ≤ t

theorem spanFiles_within (period : ExporterPeriod) (span : ExportSpan) :
    ∀ file ∈ spanFiles period span, Starts file := by
  intro file hfile
  unfold spanFiles at hfile
  split at hfile
  · split at hfile
    · obtain rfl := List.mem_singleton.mp hfile
      intro a ha
      simp at ha
    · obtain ⟨bounds, -, rfl⟩ := List.mem_map.mp hfile
      intro a ha t ht
      simp only [Option.mem_def, Option.some.injEq] at ha
      simp only [ExportSpan.holds, Option.all_some, Bool.and_eq_true, decide_eq_true_eq] at ht
      have hmax := le_max_left bounds.1 ‹Int›
      omega
  · obtain rfl := List.mem_singleton.mp hfile
    intro a ha
    simp at ha

/-- The files a run over a range covers. -/
def runFiles (period : ExporterPeriod) (mode : ExportRangeMode) (after before : Int) :
    List (ExportSpan × ExportSpan) :=
  match effectiveSpan period mode after before with
  | none => []
  | some span => spanFiles period span

/-- The whole range of the period that starts at `start`. -/
def bounds (period : ExporterPeriod) (start : Int) : ExportSpan :=
  if period = .all then ⟨none, none⟩ else ⟨some start, some (periodShift period start 1)⟩

/-! ## 3. The decision about one file -/

/-- The file starts before the oldest record of the database. -/
def beforeHistory (whole : ExportSpan) (history : Option Int) : Bool :=
  match whole.after, history with
  | none, _ => true
  | some _, none => false
  | some after, some oldest => decide (after < oldest)

inductive ExportConflict where
  | error | skip | overwrite | purge
  deriving DecidableEq, Repr

inductive ExportFileAction where
  | create | overwrite | keep | remove | none
  deriving DecidableEq, Repr

inductive ExportKeepReason where
  | skip | history | part | empty
  deriving DecidableEq, Repr

/-- What a run does with one file, and why it keeps the file when it does; a conflict names the
    path. -/
def ExportConflict.decide {π : Type} (onConflict : ExportConflict) (path : π)
    (fileExists records part before : Bool) :
    Except (List π) (ExportFileAction × Option ExportKeepReason) :=
  if !fileExists then .ok (if records then .create else .none, none)
  else
    match onConflict with
    | .error => .error [path]
    | .skip => .ok (.keep, some .skip)
    | .purge => .ok (if records then .overwrite else .remove, none)
    | .overwrite =>
      if !records then .ok (.keep, some .empty)
      else if part then .ok (.keep, some .part)
      else if before then .ok (.keep, some .history)
      else .ok (.overwrite, none)

end Ceres.Exporter
