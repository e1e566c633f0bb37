/-
  File:      Ceres/Exporter/Tiling.lean
  Subject:   THE FILES OF A RUN TILE ITS RANGE (`exporter.py`: `period_start`, `period_shift`,
             `effective_span`, `span_files`).

  Periods of an hour, a day or a month stand one behind the other and leave nothing out; a run's range is
  cut where one of them ends.

  * `IsStart` -- a moment a period starts at; `start_le`, `lt_next`, `start_unique`, `start_next` -- each
    moment lies in one period, and the next one starts where it ends;
  * `Tiles` -- parts that are adjacent, in order and not empty, each inside its own whole period;
    `spanFiles_tiles`;
  * `Whole` -- a union of whole periods; `expand_least`, `shrink_greatest`;
  * **`range_modes_tile`** -- the three modes.
-/
import Ceres.Exporter.Span
import Ceres.Library.Month
import Mathlib.Order.Bounds.Defs
import Mathlib.Data.Set.Lattice
import Mathlib.Order.Interval.Set.Basic

namespace Ceres.Exporter

open Ceres.Library Ceres.Database

/-! ## 1. Periods -/

/-- A period starts at the moment. -/
def IsStart (period : ExporterPeriod) (s : Int) : Prop := periodStart period s = s

section Periods

variable {period : ExporterPeriod}

theorem dateOf_midnight (n : Int) : dateOf (n * DAY) = civil n := by
  unfold dateOf DAY
  rw [Int.mul_ediv_cancel _ (by omega)]

theorem periodStart_month (t : Int) : periodStart .month t = monthStart (dateOf t).index * DAY := by
  have hmonth : 1 ≤ (dateOf t).month ∧ (dateOf t).month ≤ 12 := (civil_valid (t / DAY)).month
  rw [Date.index, monthStart_eq (dateOf t).year hmonth]
  rfl

theorem civil_monthStart (index : Int) :
    (civil (monthStart index)).index = index ∧ (civil (monthStart index)).day = 1 := by
  obtain ⟨year, month, hmonth, rfl⟩ := exists_month index
  have hrange := monthDays_range year month
  have hdate : civil (daysOf ⟨year, month, 1⟩) = ⟨year, month, 1⟩ :=
    civil_daysOf ⟨hmonth, by show 1 ≤ 1 ∧ 1 ≤ monthDays year month; omega⟩
  rw [monthStart_eq year hmonth, hdate]
  exact ⟨rfl, rfl⟩

theorem periodShift_month (index : Int) :
    periodShift .month (monthStart index * DAY) 1 = monthStart (index + 1) * DAY := by
  obtain ⟨hindex, hday⟩ := civil_monthStart index
  have hmonth := (civil_valid (monthStart index)).month
  have htime : timeOf (monthStart index * DAY) = 0 := by
    unfold timeOf DAY
    omega
  show daysOf (shiftMonths (dateOf (monthStart index * DAY)) 1) * DAY + _ = _
  rw [dateOf_midnight, htime]
  generalize civil (monthStart index) = date at *
  obtain ⟨year, month, day⟩ := date
  simp only [Date.index] at hindex hday hmonth
  subst hday hindex
  unfold shiftMonths monthStart
  simp only
  have hnext : year * 12 + month - 1 + 1 = 12 * year + month - 1 + 1 := by omega
  rw [hnext]
  simp

theorem start_le (h : period ≠ .all) (t : Int) : periodStart period t ≤ t := by
  cases period with
  | hour =>
    show t / HOUR * HOUR ≤ t
    unfold HOUR
    omega
  | day =>
    show t / DAY * DAY ≤ t
    unfold DAY
    omega
  | month =>
    have hle := (monthStart_civil (t / DAY)).1
    rw [periodStart_month]
    unfold dateOf DAY at *
    omega
  | all => exact absurd rfl h

theorem start_idem (h : period ≠ .all) (t : Int) : IsStart period (periodStart period t) := by
  unfold IsStart
  cases period with
  | hour =>
    show t / HOUR * HOUR / HOUR * HOUR = t / HOUR * HOUR
    rw [Int.mul_ediv_cancel _ (by unfold HOUR; omega)]
  | day =>
    show t / DAY * DAY / DAY * DAY = t / DAY * DAY
    rw [Int.mul_ediv_cancel _ (by unfold DAY; omega)]
  | month =>
    rw [periodStart_month t, periodStart_month, dateOf_midnight, (civil_monthStart _).1]
  | all => exact absurd rfl h

/-- It ends behind them. -/
theorem lt_next (h : period ≠ .all) (t : Int) : t < periodShift period (periodStart period t) 1 := by
  cases period with
  | hour =>
    show t < t / HOUR * HOUR + HOUR * 1
    unfold HOUR
    omega
  | day =>
    show t < t / DAY * DAY + DAY * 1
    unfold DAY
    omega
  | month =>
    have hlt := (monthStart_civil (t / DAY)).2
    rw [periodStart_month, periodShift_month]
    unfold dateOf DAY at *
    omega
  | all => exact absurd rfl h

theorem start_next (h : period ≠ .all) {s : Int} (hs : IsStart period s) :
    IsStart period (periodShift period s 1) := by
  unfold IsStart at *
  cases period with
  | hour =>
    have hs' : s / HOUR * HOUR = s := hs
    show (s + HOUR * 1) / HOUR * HOUR = s + HOUR * 1
    unfold HOUR at *
    omega
  | day =>
    have hs' : s / DAY * DAY = s := hs
    show (s + DAY * 1) / DAY * DAY = s + DAY * 1
    unfold DAY at *
    omega
  | month =>
    rw [periodStart_month] at hs
    rw [← hs, periodShift_month, periodStart_month, dateOf_midnight, (civil_monthStart _).1]
  | all => exact absurd rfl h

/-- The moments from its start to its end are its own. -/
theorem start_unique (h : period ≠ .all) {s t : Int} (hs : IsStart period s) (hle : s ≤ t)
    (hlt : t < periodShift period s 1) : periodStart period t = s := by
  unfold IsStart at hs
  cases period with
  | hour =>
    have hs' : s / HOUR * HOUR = s := hs
    have hlt' : t < s + HOUR * 1 := hlt
    show t / HOUR * HOUR = s
    unfold HOUR at *
    omega
  | day =>
    have hs' : s / DAY * DAY = s := hs
    have hlt' : t < s + DAY * 1 := hlt
    show t / DAY * DAY = s
    unfold DAY at *
    omega
  | month =>
    rw [periodStart_month] at hs
    rw [← hs, periodShift_month] at hlt
    have hlow : monthStart (dateOf s).index ≤ t / DAY := by
      unfold DAY at *
      omega
    have hhigh : t / DAY < monthStart ((dateOf s).index + 1) := by
      unfold DAY at *
      omega
    rw [periodStart_month]
    show monthStart (civil (t / DAY)).index * DAY = s
    rw [index_of_mem hlow hhigh, hs]
  | all => exact absurd rfl h

theorem start_mono (h : period ≠ .all) {t u : Int} (htu : t ≤ u) :
    periodStart period t ≤ periodStart period u := by
  by_contra hgt
  have hsame := start_unique h (start_idem h u) ((not_le.mp hgt).le.trans (start_le h t))
    (htu.trans_lt (lt_next h u))
  omega

end Periods

/-! ## 2. The files of a range -/

/-- The parts of a range: adjacent, in order and not empty, each inside the whole range of its file; the
    whole ranges are periods one behind the other. -/
structure Tiles (period : ExporterPeriod) (after before : Int) (files : List (ExportSpan × ExportSpan)) :
    Prop where
  parts : ∀ file ∈ files, ∃ start a e, IsStart period start ∧ a < e ∧ start ≤ a ∧
    e ≤ periodShift period start 1 ∧
      file = (⟨some start, some (periodShift period start 1)⟩, ⟨some a, some e⟩)
  first : files.head?.bind (·.2.after) = some after
  last : files.getLast?.bind (·.2.before) = some before
  adjacent : files.IsChain fun file next => file.2.before = next.2.after ∧ file.1.before = next.1.after
  distinct : (files.map (·.1.after)).Nodup
  union : ∀ t, (after ≤ t ∧ t < before) ↔ ∃ file ∈ files, file.2.holds t = true

section Files

variable {period : ExporterPeriod}

/-- The whole range of a period, and the part of it a range selects. -/
def cut (after before : Int) (bounds : Int × Int) : ExportSpan × ExportSpan :=
  (⟨some bounds.1, some bounds.2⟩, ⟨some (max bounds.1 after), some (min bounds.2 before)⟩)

theorem holds_iff {a b t : Int} : (ExportSpan.mk (some a) (some b)).holds t = true ↔ a ≤ t ∧ t < b := by
  simp [ExportSpan.holds]

/-- One part, the last. -/
theorem tiles_single {start a e : Int} (hs : IsStart period start) (hae : a < e) (hle : start ≤ a)
    (hend : e ≤ periodShift period start 1) :
    Tiles period a e [(⟨some start, some (periodShift period start 1)⟩, ⟨some a, some e⟩)] := by
  refine ⟨?_, rfl, rfl, List.isChain_singleton _, List.nodup_singleton _, fun t => ?_⟩
  · intro file hfile
    exact ⟨start, a, e, hs, hae, hle, hend, List.mem_singleton.mp hfile⟩
  · simp [holds_iff]

theorem Tiles.cons (h : period ≠ .all) {start a before : Int} {rest : List (ExportSpan × ExportSpan)}
    (hs : IsStart period start) (hae : a < periodShift period start 1) (hle : start ≤ a)
    (hrest : Tiles period (periodShift period start 1) before rest)
    (hbefore : periodShift period start 1 < before)
    (hfirst : rest.head?.bind (·.1.after) = some (periodShift period start 1)) :
    Tiles period a before ((⟨some start, some (periodShift period start 1)⟩,
      ⟨some a, some (periodShift period start 1)⟩) :: rest) := by
  obtain ⟨next, more, rfl⟩ : ∃ next more, rest = next :: more := by
    cases rest with
    | nil => exact absurd hfirst (by simp)
    | cons next more => exact ⟨next, more, rfl⟩
  -- every other file starts at or behind the end of this one
  have hlater : ∀ file ∈ next :: more, ∀ s ∈ file.1.after, periodShift period start 1 ≤ s := by
    intro file hfile s hstart
    obtain ⟨start', a', e', hs', hae', hle', hend', rfl⟩ := hrest.parts file hfile
    obtain rfl := Option.some.inj hstart
    have hin := (hrest.union a').mpr ⟨_, hfile, holds_iff.mpr ⟨le_rfl, hae'⟩⟩
    by_contra hlt
    have hsame := start_unique h hs' (not_le.mp hlt).le (hin.1.trans_lt (hae'.trans_le hend'))
    have hself : periodStart period (periodShift period start 1) = periodShift period start 1 := start_next h hs
    omega
  refine ⟨?_, rfl, hrest.last, ?_, ?_, fun t => ?_⟩
  · intro file hfile
    rcases List.mem_cons.mp hfile with rfl | hfile
    · exact ⟨start, a, _, hs, hae, hle, le_rfl, rfl⟩
    · exact hrest.parts file hfile
  · refine List.isChain_cons_cons.mpr ⟨⟨?_, hfirst.symm⟩, hrest.adjacent⟩
    exact hrest.first.symm
  · rw [List.map_cons, List.nodup_cons]
    refine ⟨fun hmem => ?_, hrest.distinct⟩
    obtain ⟨file, hfile, heq⟩ := List.mem_map.mp hmem
    have hge := hlater file hfile start heq
    have hlt := lt_periodShift h start
    omega
  · rw [List.exists_mem_cons_iff, ← hrest.union t, holds_iff]
    omega

/-- **The loop over the periods** cuts what is left of the range. -/
theorem cut_tiles (h : period ≠ .all) (after before : Int) :
    ∀ (fuel : Nat) (start : Int), (before - start).toNat ≤ fuel → IsStart period start →
      max start after < periodShift period start 1 → max start after < before →
      Tiles period (max start after) before ((periodsFrom period before fuel start).map (cut after before)) ∧
        ((periodsFrom period before fuel start).map (cut after before)).head?.bind (·.1.after) =
          some start := by
  intro fuel
  induction fuel with
  | zero =>
    intro start hfuel _ _ hbefore
    omega
  | succ fuel ih =>
    intro start hfuel hs hnext hbefore
    rw [periodsFrom, if_pos (by omega), List.map_cons]
    refine ⟨?_, rfl⟩
    by_cases hlast : periodShift period start 1 < before
    · have hmax : max (periodShift period start 1) after = periodShift period start 1 := by omega
      have hlt := lt_periodShift h (periodShift period start 1)
      have hgrow := lt_periodShift h start
      obtain ⟨hrest, hfirst⟩ := ih (periodShift period start 1) (by omega) (start_next h hs)
        (by omega) (by omega)
      rw [hmax] at hrest
      have hcut : cut after before (start, periodShift period start 1) =
          (⟨some start, some (periodShift period start 1)⟩,
            ⟨some (max start after), some (periodShift period start 1)⟩) := by
        rw [cut, min_eq_left hlast.le]
      rw [hcut]
      exact hrest.cons h hs hnext (le_max_left _ _) hlast hfirst
    · have hnil : periodsFrom period before fuel (periodShift period start 1) = [] := by
        cases fuel with
        | zero => rfl
        | succ fuel => rw [periodsFrom, if_neg hlast]
      have hcut : cut after before (start, periodShift period start 1) =
          (⟨some start, some (periodShift period start 1)⟩, ⟨some (max start after), some before⟩) := by
        rw [cut, min_eq_right (not_lt.mp hlast)]
      rw [hnil, hcut]
      exact tiles_single hs hbefore (le_max_left _ _) (not_lt.mp hlast)

theorem spanFiles_tiles (h : period ≠ .all) {after before : Int} (hlt : after < before) :
    Tiles period after before (spanFiles period ⟨some after, some before⟩) := by
  have hle := start_le h after
  have hmax : max (periodStart period after) after = after := max_eq_right hle
  have htiles := (cut_tiles h after before _ (periodStart period after) le_rfl (start_idem h after)
    (by rw [hmax]; exact lt_next h after) (by rw [hmax]; exact hlt)).1
  rw [hmax] at htiles
  simp only [spanFiles, if_neg h]
  exact htiles

theorem mem_periodsFrom (h : period ≠ .all) {before : Int} {bounds : Int × Int} :
    ∀ (fuel : Nat) (start : Int), IsStart period start → bounds ∈ periodsFrom period before fuel start →
      IsStart period bounds.1 ∧ start ≤ bounds.1 ∧ bounds.1 < before ∧
        bounds.2 = periodShift period bounds.1 1 := by
  intro fuel
  induction fuel with
  | zero =>
    intro start _ hmem
    cases hmem
  | succ fuel ih =>
    intro start hs hmem
    rw [periodsFrom] at hmem
    split at hmem
    · rcases List.mem_cons.mp hmem with rfl | hmem
      · exact ⟨hs, le_rfl, ‹_›, rfl⟩
      · obtain ⟨hstart, hle, hlt, hend⟩ := ih _ (start_next h hs) hmem
        exact ⟨hstart, (lt_periodShift h start).le.trans hle, hlt, hend⟩
    · cases hmem

end Files

/-! ## 3. Whole periods -/

/-- A union of whole periods. -/
def Whole (period : ExporterPeriod) (moments : Set Int) : Prop :=
  ∃ starts : Set Int, (∀ s ∈ starts, IsStart period s) ∧
    moments = ⋃ s ∈ starts, Set.Ico s (periodShift period s 1)

section Wholes

variable {period : ExporterPeriod}

theorem next_le (h : period ≠ .all) {s e : Int} (hs : IsStart period s) (he : IsStart period e)
    (hlt : s < e) : periodShift period s 1 ≤ e := by
  by_contra hgt
  have hsame := start_unique h hs hlt.le (not_le.mp hgt)
  have hself : periodStart period e = e := he
  omega

theorem whole_Ico (h : period ≠ .all) {a b : Int} (ha : IsStart period a) (hb : IsStart period b) :
    Whole period (Set.Ico a b) := by
  refine ⟨{s | IsStart period s ∧ a ≤ s ∧ s < b}, fun s hs => hs.1, Set.ext fun t => ?_⟩
  simp only [Set.mem_iUnion, Set.mem_Ico, Set.mem_ofPred_eq, exists_prop]
  constructor
  · intro ht
    have hself : periodStart period a = a := ha
    have hmono := start_mono h ht.1
    have hle := start_le h t
    exact ⟨periodStart period t, ⟨start_idem h t, by omega, by omega⟩, hle, lt_next h t⟩
  · intro hmem
    obtain ⟨s, ⟨hs, hle, hlt⟩, hlow, hhigh⟩ := hmem
    have hend := next_le h hs hb hlt
    omega

theorem Whole.holds_period (h : period ≠ .all) {moments : Set Int} (hU : Whole period moments) {t : Int}
    (ht : t ∈ moments) : Set.Ico (periodStart period t) (periodShift period (periodStart period t) 1) ⊆
      moments := by
  obtain ⟨starts, hstarts, rfl⟩ := hU
  simp only [Set.mem_iUnion, exists_prop] at ht
  obtain ⟨s, hs, hmem⟩ := ht
  rw [start_unique h (hstarts s hs) hmem.1 hmem.2]
  exact Set.subset_iUnion₂_of_subset s hs (le_refl _)

/-- The bounds of `expand`. -/
theorem expand_bounds (h : period ≠ .all) (after before : Int) : ∃ b, IsStart period b ∧
    effectiveSpan period .expand after before = some ⟨some (periodStart period after), some b⟩ ∧
      before ≤ b ∧ ∀ s, IsStart period s → s < b → s < before := by
  have hlast := start_le h before
  by_cases hend : periodStart period before = before
  · refine ⟨before, hend, ?_, le_rfl, fun s _ hs => hs⟩
    simp only [effectiveSpan, if_neg h, hend, if_true]
  · refine ⟨periodShift period (periodStart period before) 1, start_next h (start_idem h before), ?_,
      (lt_next h before).le, fun s hs hsb => ?_⟩
    · simp only [effectiveSpan, if_neg h, if_neg hend]
    · by_contra hge
      have hsame := start_unique h (start_idem h before) (hlast.trans (not_lt.mp hge)) hsb
      have hself : periodStart period s = s := hs
      omega

/-- What `expand` covers: the smallest union of whole periods around the range. -/
theorem expand_least (h : period ≠ .all) {after before : Int} (hlt : after < before) :
    ∃ a b, effectiveSpan period .expand after before = some ⟨some a, some b⟩ ∧ a < b ∧
      IsStart period a ∧ IsStart period b ∧
      IsLeast {U | Whole period U ∧ Set.Ico after before ⊆ U} (Set.Ico a b) := by
  have hfirst := start_le h after
  obtain ⟨b, hb, hspan, hbefore, hclose⟩ := expand_bounds h after before
  refine ⟨_, b, hspan, by omega, start_idem h after, hb,
    ⟨whole_Ico h (start_idem h after) hb, fun t ht => ⟨hfirst.trans ht.1, ht.2.trans_le hbefore⟩⟩, ?_⟩
  intro U hU t ht
  obtain ⟨hwhole, hcover⟩ := hU
  have hst := start_le h t
  have hmono' := start_mono h ht.1
  rw [start_idem h after] at hmono'
  -- the period of `t` and the range have a moment in common
  have hcommon : max (periodStart period t) after ∈ Set.Ico after before :=
    ⟨le_max_right _ _, max_lt (hclose _ (start_idem h t) (hst.trans_lt ht.2)) hlt⟩
  have hsame : periodStart period (max (periodStart period t) after) = periodStart period t := by
    refine start_unique h (start_idem h t) (le_max_left _ _) (max_lt (lt_periodShift h _) ?_)
    rcases hmono'.lt_or_eq with hless | heq
    · have hend := next_le h (start_idem h after) (start_idem h t) hless
      have hafter := lt_next h after
      have hgrow := lt_periodShift h (periodStart period t)
      omega
    · rw [← heq]
      exact lt_next h after
  have hsub := hwhole.holds_period h (hcover hcommon)
  rw [hsame] at hsub
  exact hsub ⟨hst, lt_next h t⟩

/-- The bounds of `shrink`. -/
theorem shrink_bounds (h : period ≠ .all) (after before : Int) : ∃ a, IsStart period a ∧ after ≤ a ∧
    (∀ s, IsStart period s → after ≤ s → a ≤ s) ∧ effectiveSpan period .shrink after before =
      if a < periodStart period before then some ⟨some a, some (periodStart period before)⟩ else none := by
  have hfirst := start_le h after
  by_cases hstart : periodStart period after = after
  · refine ⟨after, hstart, le_rfl, fun s _ hs => hs, ?_⟩
    simp only [effectiveSpan, if_neg h, hstart, if_true]
  · refine ⟨periodShift period (periodStart period after) 1, start_next h (start_idem h after),
      (lt_next h after).le, fun s hs hle => ?_, ?_⟩
    · exact next_le h (start_idem h after) hs (by omega)
    · simp only [effectiveSpan, if_neg h, if_neg hstart]

/-- A whole period inside the range lies between the bounds of `shrink`. -/
theorem end_le_last (h : period ≠ .all) {s before : Int} (hs : IsStart period s)
    (hle : periodShift period s 1 ≤ before) : periodShift period s 1 ≤ periodStart period before := by
  have hmono := start_mono h hle
  have hself : periodStart period (periodShift period s 1) = periodShift period s 1 := start_next h hs
  omega

/-- What `shrink` covers: the largest union of whole periods inside the range. -/
theorem shrink_greatest (h : period ≠ .all) {after before : Int} {span : ExportSpan}
    (hspan : effectiveSpan period .shrink after before = some span) :
    ∃ a b, span = ⟨some a, some b⟩ ∧ a < b ∧ IsStart period a ∧ IsStart period b ∧
      IsGreatest {U | Whole period U ∧ U ⊆ Set.Ico after before} (Set.Ico a b) := by
  obtain ⟨a, ha, hafter, hleast, heff⟩ := shrink_bounds h after before
  rw [heff, Option.ite_none_right_eq_some] at hspan
  obtain ⟨hlt, hspan⟩ := hspan
  have hlast := start_le h before
  refine ⟨a, _, (Option.some.inj hspan).symm, hlt, ha, start_idem h before,
    ⟨whole_Ico h ha (start_idem h before), fun t ht => ⟨hafter.trans ht.1, ht.2.trans_le hlast⟩⟩, ?_⟩
  intro U hU t ht
  obtain ⟨hwhole, hinside⟩ := hU
  have hsub := (hwhole.holds_period h ht).trans hinside
  have hst := start_le h t
  have hnext := lt_next h t
  have hlow : after ≤ periodStart period t := (hsub ⟨le_rfl, lt_periodShift h _⟩).1
  have hhigh : periodShift period (periodStart period t) 1 ≤ before := by
    have hgrow := lt_periodShift h (periodStart period t)
    have hin := (hsub ⟨show periodStart period t ≤ periodShift period (periodStart period t) 1 - 1 by
      omega, by omega⟩).2
    omega
  have hend := end_le_last h (start_idem h t) hhigh
  exact ⟨(hleast _ (start_idem h t) hlow).trans hst, hnext.trans_le hend⟩

/-- It covers nothing exactly when no whole period lies in the range. -/
theorem shrink_none_iff (h : period ≠ .all) (after before : Int) :
    effectiveSpan period .shrink after before = none ↔
      ∀ s, IsStart period s → ¬ (after ≤ s ∧ periodShift period s 1 ≤ before) := by
  obtain ⟨a, ha, hafter, hleast, heff⟩ := shrink_bounds h after before
  rw [heff, ite_eq_right_iff]
  constructor
  · intro hnone s hs hfits
    have hend := end_le_last h hs hfits.2
    have hgrow := lt_periodShift h s
    exact absurd (hnone ((hleast s hs hfits.1).trans_lt (hgrow.trans_le hend))) (by simp)
  · intro hfits hlt
    have hend := next_le h ha (start_idem h before) hlt
    exact absurd ⟨hafter, hend.trans (start_le h before)⟩ (hfits a ha)

theorem selected_whole (h : period ≠ .all) {a b : Int} (ha : IsStart period a) (hb : IsStart period b) :
    ∀ file ∈ spanFiles period ⟨some a, some b⟩, file.2 = file.1 := by
  intro file hfile
  simp only [spanFiles, if_neg h] at hfile
  obtain ⟨bounds, hbounds, rfl⟩ := List.mem_map.mp hfile
  have hself : periodStart period a = a := ha
  rw [hself] at hbounds
  obtain ⟨hs, hle, hlt, hend⟩ := mem_periodsFrom h _ _ ha hbounds
  have hnext := next_le h hs hb hlt
  rw [← hend] at hnext
  simp only [max_eq_left hle, min_eq_left hnext]

end Wholes

/-- What the three modes cover of a range, and how its files tile that. -/
structure RangeModes (period : ExporterPeriod) (after before : Int) : Prop where
  tiles : ∀ mode span, effectiveSpan period mode after before = some span →
    ∃ a b, span = ⟨some a, some b⟩ ∧ Tiles period a b (spanFiles period span)
  expand : ∃ a b, effectiveSpan period .expand after before = some ⟨some a, some b⟩ ∧
    IsLeast {U | Whole period U ∧ Set.Ico after before ⊆ U} (Set.Ico a b)
  shrink : ∀ span, effectiveSpan period .shrink after before = some span →
    ∃ a b, span = ⟨some a, some b⟩ ∧
      IsGreatest {U | Whole period U ∧ U ⊆ Set.Ico after before} (Set.Ico a b)
  nothing : effectiveSpan period .shrink after before = none ↔
    ∀ s, IsStart period s → ¬ (after ≤ s ∧ periodShift period s 1 ≤ before)
  selected : ∀ mode span, mode ≠ .exact → effectiveSpan period mode after before = some span →
    ∀ file ∈ spanFiles period span, file.2 = file.1
  exact : effectiveSpan period .exact after before = some ⟨some after, some before⟩

/-- **The range modes tile time exactly.** -/
theorem range_modes_tile {period : ExporterPeriod} (h : period ≠ .all) {after before : Int}
    (hlt : after < before) : RangeModes period after before := by
  obtain ⟨a, b, hexpand, hab, ha, hb, hleast⟩ := expand_least h hlt
  have hexact : effectiveSpan period .exact after before = some ⟨some after, some before⟩ := by
    simp only [effectiveSpan, if_neg h]
  refine ⟨?_, ⟨a, b, hexpand, hleast⟩, ?_, shrink_none_iff h after before, ?_, hexact⟩
  · intro mode span hspan
    cases mode with
    | expand =>
      obtain rfl := Option.some.inj (hexpand.symm.trans hspan)
      exact ⟨a, b, rfl, spanFiles_tiles h hab⟩
    | exact =>
      obtain rfl := Option.some.inj (hexact.symm.trans hspan)
      exact ⟨after, before, rfl, spanFiles_tiles h hlt⟩
    | shrink =>
      obtain ⟨a', b', rfl, hab', -⟩ := shrink_greatest h hspan
      exact ⟨a', b', rfl, spanFiles_tiles h hab'⟩
  · intro span hspan
    obtain ⟨a', b', hspan', -, -, -, hgreatest⟩ := shrink_greatest h hspan
    exact ⟨a', b', hspan', hgreatest⟩
  · intro mode span hmode hspan
    cases mode with
    | expand =>
      obtain rfl := Option.some.inj (hexpand.symm.trans hspan)
      exact selected_whole h ha hb
    | exact => exact absurd rfl hmode
    | shrink =>
      obtain ⟨a', b', rfl, -, ha', hb', -⟩ := shrink_greatest h hspan
      exact selected_whole h ha' hb'

/-- Half a minute before and behind February 2024. -/
theorem february_tiles : RangeModes .month 1706745570000000 1709251230000000 ∧
    spanFiles .month ⟨some 1706745600000000, some 1709251200000000⟩ =
      [(⟨some 1706745600000000, some 1709251200000000⟩, ⟨some 1706745600000000, some 1709251200000000⟩)] :=
  ⟨range_modes_tile (by decide) (by decide), by decide⟩

end Ceres.Exporter
