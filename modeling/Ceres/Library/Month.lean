/-
  File:      Ceres/Library/Month.lean
  Subject:   MONTHS, AND THE DAYS OF A YEAR.

  A month is a number, 12 for each year; a date is valid where its month has the day.

  * `leap`, `monthDays`, `Date.Valid` -- how long a month is, and the dates there are;
  * `monthStart`, `monthStart_succ` -- the first day of a month, and of the next one;
  * `civil_valid`, **`civil_daysOf`** -- the date of a day is valid, and a valid date is the date of its day;
  * `ordinal` -- the day of the year; `ordinal_inj` -- it tells the days of one year apart.
-/
import Ceres.Library.Calendar

namespace Ceres.Library

/-! ## 1. How long a month is -/

def leap (year : Int) : Bool := year % 4 = 0 ∧ (year % 100 ≠ 0 ∨ year % 400 = 0)

def monthDays (year : Int) (month : Nat) : Nat :=
  if month = 2 then if leap year then 29 else 28
  else if month = 4 ∨ month = 6 ∨ month = 9 ∨ month = 11 then 30
  else 31

/-- The date is one of the calendar's. -/
structure Date.Valid (date : Date) : Prop where
  month : 1 ≤ date.month ∧ date.month ≤ 12
  day : 1 ≤ date.day ∧ date.day ≤ monthDays date.year date.month

instance (date : Date) : Decidable date.Valid :=
  decidable_of_iff ((1 ≤ date.month ∧ date.month ≤ 12) ∧
      1 ≤ date.day ∧ date.day ≤ monthDays date.year date.month)
    ⟨fun h => ⟨h.1, h.2⟩, fun h => ⟨h.month, h.day⟩⟩

/-- The number of a date's month. -/
def Date.index (date : Date) : Int := 12 * date.year + date.month - 1

/-- The first day of a month. -/
def monthStart (index : Int) : Int := daysOf ⟨index / 12, (index % 12 + 1).toNat, 1⟩

theorem monthDays_range (year : Int) (month : Nat) : 28 ≤ monthDays year month ∧ monthDays year month ≤ 31 := by
  unfold monthDays
  split_ifs <;> omega

theorem monthStart_eq (year : Int) {month : Nat} (h : 1 ≤ month ∧ month ≤ 12) :
    monthStart (12 * year + month - 1) = daysOf ⟨year, month, 1⟩ := by
  have hyear : (12 * year + month - 1 : Int) / 12 = year := by omega
  have hmonth : ((12 * year + month - 1 : Int) % 12 + 1).toNat = month := by omega
  rw [monthStart, hyear, hmonth]

theorem exists_month (index : Int) :
    ∃ (year : Int) (month : Nat), (1 ≤ month ∧ month ≤ 12) ∧ index = 12 * year + month - 1 :=
  ⟨index / 12, (index % 12 + 1).toNat, by omega, by omega⟩

/-- **The next month starts behind the last day of a month.** -/
theorem monthStart_succ (year : Int) {month : Nat} (h : 1 ≤ month ∧ month ≤ 12) :
    monthStart (12 * year + month) = daysOf ⟨year, month, 1⟩ + monthDays year month := by
  obtain ⟨hlow, hhigh⟩ := h
  by_cases hlast : month = 12
  · subst hlast
    have hnext := monthStart_eq (year + 1) (show 1 ≤ 1 ∧ 1 ≤ 12 by omega)
    have hindex : 12 * (year + 1) + ((1 : Nat) : Int) - 1 = 12 * year + ((12 : Nat) : Int) := by omega
    rw [hindex] at hnext
    rw [hnext]
    simp only [daysOf, monthDays]
    norm_num
    omega
  · have hnext := monthStart_eq year (show 1 ≤ month + 1 ∧ month + 1 ≤ 12 by omega)
    have hindex : 12 * year + ((month + 1 : Nat) : Int) - 1 = 12 * year + month := by omega
    rw [hindex] at hnext
    rw [hnext]
    by_cases hfeb : month = 2
    · subst hfeb
      simp only [daysOf, monthDays, leap]
      norm_num
      split <;> omega
    · simp only [daysOf, monthDays, if_neg hfeb]
      interval_cases month <;> norm_num at * <;> omega

theorem daysOf_eq {date : Date} (h : 1 ≤ date.month ∧ date.month ≤ 12) :
    daysOf date = monthStart date.index + date.day - 1 := by
  rw [Date.index, monthStart_eq date.year h]
  unfold daysOf
  simp only
  omega

theorem monthStart_ge {year : Int} {month : Nat} (h : 1 ≤ month ∧ month ≤ 12) {index : Int}
    (hlater : 12 * year + month ≤ index) : daysOf ⟨year, month, 1⟩ + monthDays year month ≤ monthStart index := by
  induction index, hlater using Int.leInduction with
  | base => rw [monthStart_succ year h]
  | succ index hle ih =>
    obtain ⟨y, m, hm, hindex⟩ := exists_month index
    have hnext := monthStart_succ y hm
    have hsame := monthStart_eq y hm
    have hstep : index + 1 = 12 * y + m := by omega
    rw [← hindex] at hsame
    rw [hstep, hnext, ← hsame]
    omega

/-- **Valid dates are ordered as their days are.** -/
theorem daysOf_lt {a b : Date} (ha : a.Valid) (hb : b.Valid)
    (h : a.index < b.index ∨ a.index = b.index ∧ a.day < b.day) : daysOf a < daysOf b := by
  have ha' := ha.day
  have hb' := hb.day
  rw [daysOf_eq ha.month, daysOf_eq hb.month]
  rcases h with h | ⟨h, hday⟩
  · have hstart := monthStart_eq a.year ha.month
    have hge := @monthStart_ge a.year a.month ha.month b.index (by unfold Date.index at *; omega)
    rw [← hstart] at hge
    unfold Date.index at *
    omega
  · rw [h]
    omega

/-! ## 2. Valid dates -/

theorem leap_of_day {n : Int} (h : (parts n).day = 365) : leap (marchYear n + 1) = true := by
  have hr₀ : 0 ≤ (n + 719468) % 146097 := by omega
  have hr₁ : (n + 719468) % 146097 ≤ 146096 := by omega
  unfold leap marchYear
  rw [decide_eq_true_iff]
  unfold parts cappedDiv at *
  simp only at *
  generalize (n + 719468) % 146097 = r at *
  generalize (n + 719468) / 146097 = e at *
  generalize hc : min (r / 36524) 3 = c at *
  generalize hs : r - 36524 * c = s at *
  have hs₀ : 0 ≤ s ∧ s ≤ 36524 ∧ (s = 36524 → c = 3) := by omega
  have hs₁ : 0 ≤ c ∧ c ≤ 3 := by omega
  clear hs hc hr₀ hr₁
  generalize hq : s / 1461 = q at *
  generalize ht : s - 1461 * q = t at *
  have ht₀ : 0 ≤ t ∧ t ≤ 1460 := by omega
  have hyear : min (t / 365) 3 = 3 ∧ t = 1460 := by omega
  rw [hyear.1]
  omega

/-- **The date of a day is valid.** -/
theorem civil_valid (n : Int) : (civil n).Valid := by
  obtain ⟨hmonth, hday⟩ := civil_range n
  refine ⟨hmonth, hday.1, ?_⟩
  obtain ⟨-, -, -, hrange, -⟩ := parts_spec n
  have hleap := @leap_of_day n
  clear hmonth hday
  unfold civil marchMonth
  simp only
  generalize marchYear n = y at *
  generalize (parts n).day = d at *
  by_cases hlong : (5 * d + 2) / 153 = 11
  · -- February is the last month of the year
    have hten : ¬ (5 * d + 2) / 153 < 10 := by omega
    rw [if_neg hten, if_neg hten, hlong]
    show _ ≤ monthDays (y + 1) 2
    unfold monthDays
    rw [if_pos rfl]
    by_cases hfull : d = 365
    · rw [if_pos (hleap hfull)]
      omega
    · split <;> omega
  · have hcases : (5 * d + 2) / 153 = 0 ∨ (5 * d + 2) / 153 = 1 ∨ (5 * d + 2) / 153 = 2 ∨
        (5 * d + 2) / 153 = 3 ∨ (5 * d + 2) / 153 = 4 ∨ (5 * d + 2) / 153 = 5 ∨ (5 * d + 2) / 153 = 6 ∨
        (5 * d + 2) / 153 = 7 ∨ (5 * d + 2) / 153 = 8 ∨ (5 * d + 2) / 153 = 9 ∨ (5 * d + 2) / 153 = 10 := by
      omega
    unfold monthDays
    rcases hcases with h | h | h | h | h | h | h | h | h | h | h <;> rw [h] <;> norm_num <;> omega

/-- **A valid date is the date of its day.** -/
theorem civil_daysOf {date : Date} (h : date.Valid) : civil (daysOf date) = date := by
  have hvalid := civil_valid (daysOf date)
  have hdays := daysOf_civil (daysOf date)
  have hindex : (civil (daysOf date)).index = date.index := by
    rcases lt_trichotomy (civil (daysOf date)).index date.index with hlt | heq | hgt
    · have hcontra := daysOf_lt hvalid h (.inl hlt)
      omega
    · exact heq
    · have hcontra := daysOf_lt h hvalid (.inl hgt)
      omega
  have hday : (civil (daysOf date)).day = date.day := by
    have hleft := daysOf_eq hvalid.month
    have hright := daysOf_eq h.month
    rw [hindex] at hleft
    omega
  have hmonths := hvalid.month
  have hmonths' := h.month
  unfold Date.index at hindex
  generalize civil (daysOf date) = other at *
  cases other
  cases date
  simp only [Date.mk.injEq] at *
  omega

theorem monthStart_civil (n : Int) : monthStart (civil n).index ≤ n ∧ n < monthStart ((civil n).index + 1) := by
  obtain ⟨hmonth, hlow, hhigh⟩ := civil_valid n
  have hdays := daysOf_eq hmonth
  have hstart := monthStart_eq (civil n).year hmonth
  have hnext := monthStart_succ (civil n).year hmonth
  rw [daysOf_civil] at hdays
  have hindex : (civil n).index + 1 = 12 * (civil n).year + (civil n).month := by
    unfold Date.index
    omega
  rw [hindex, hnext, ← hstart]
  unfold Date.index at *
  omega

theorem monthStart_mono {i j : Int} (h : i < j) : monthStart i < monthStart j := by
  obtain ⟨year, month, hmonth, rfl⟩ := exists_month i
  have hrange := monthDays_range year month
  have hge := @monthStart_ge year month hmonth j (by omega)
  rw [monthStart_eq year hmonth]
  omega

/-- The days from the first of a month on, up to the next, are its own. -/
theorem index_of_mem {index n : Int} (hlow : monthStart index ≤ n) (hhigh : n < monthStart (index + 1)) :
    (civil n).index = index := by
  obtain ⟨hle, hlt⟩ := monthStart_civil n
  rcases lt_trichotomy (civil n).index index with hless | heq | hmore
  · have hmono : monthStart ((civil n).index + 1) ≤ monthStart index := by
      rcases (show (civil n).index + 1 ≤ index by omega).lt_or_eq with hless | heq
      · exact (monthStart_mono hless).le
      · rw [heq]
    omega
  · exact heq
  · have hmono : monthStart (index + 1) ≤ monthStart (civil n).index := by
      rcases (show index + 1 ≤ (civil n).index by omega).lt_or_eq with hless | heq
      · exact (monthStart_mono hless).le
      · rw [heq]
    omega

/-! ## 3. The days of a year -/

/-- The day of the year, from 1. -/
def Date.ordinal (date : Date) : Int := daysOf date - daysOf ⟨date.year, 1, 1⟩ + 1

theorem Date.Valid.january (year : Int) : Date.Valid ⟨year, 1, 1⟩ :=
  ⟨by simp, le_rfl, by simp [monthDays]⟩

theorem ordinal_range {date : Date} (h : date.Valid) : 1 ≤ date.ordinal ∧ date.ordinal ≤ 366 := by
  have hfirst : daysOf ⟨date.year, 1, 1⟩ ≤ daysOf date := by
    by_cases heq : date = ⟨date.year, 1, 1⟩
    · exact le_of_eq (congrArg daysOf heq).symm
    · refine (daysOf_lt (Date.Valid.january date.year) h ?_).le
      obtain ⟨hmonth, hday⟩ := h
      obtain ⟨year, month, day⟩ := date
      simp only [Date.mk.injEq, true_and, Date.index] at heq hmonth hday ⊢
      omega
  have hnext : daysOf date < daysOf ⟨date.year + 1, 1, 1⟩ := by
    refine daysOf_lt h (Date.Valid.january _) (.inl ?_)
    have hmonth := h.month
    unfold Date.index
    simp only
    omega
  have hyear : daysOf ⟨date.year + 1, 1, 1⟩ ≤ daysOf ⟨date.year, 1, 1⟩ + 366 := by
    unfold daysOf
    simp only
    norm_num
    omega
  unfold Date.ordinal
  omega

theorem ordinal_inj {a b : Date} (ha : a.Valid) (hb : b.Valid) (hyear : a.year = b.year)
    (h : a.ordinal = b.ordinal) : a = b := by
  have hdays : daysOf a = daysOf b := by
    unfold Date.ordinal at h
    rw [hyear] at h
    omega
  rw [← civil_daysOf ha, hdays, civil_daysOf hb]

end Ceres.Library
