/-
  File:      Ceres/Library/Calendar.lean
  Subject:   THE PROLEPTIC GREGORIAN CALENDAR, and numerals of fixed width.

  A day is a number, 0 for 1970-01-01. Inside a cycle of 400 years the years start in March, so that
  the leap day is the last of its year.

  * `Parts`, `parts_spec` -- a day as cycle, century, quadrennium, year and day of the year;
  * `civil`, `civil_range`, **`civil_lt`** -- dates are ordered as days are; `daysOf_civil` -- and give
    the day back;
  * `fixed`, **`fixed_lt`** -- numerals of one width compare as their numbers do;
  * `fixed_add`, `leftpad_toDigits` -- the first and the last digits; digits padded with zeros;
  * `field_lt` -- fields of one width compare one after the other.
-/
import Mathlib.Tactic
import Mathlib.Data.Char
import Ceres.Library.Wildcard

namespace Ceres.Library

/-! ## 1. A day inside the cycle of 400 years -/

/-- The quotient, capped: the last of the parts takes what is left over. -/
def cappedDiv (size cap n : Int) : Int := min (n / size) cap

theorem cappedDiv_lt {size cap n m : Int} (hs : 0 < size) (h : n < m) :
    cappedDiv size cap n < cappedDiv size cap m ∨ cappedDiv size cap n = cappedDiv size cap m ∧
        n - size * cappedDiv size cap n < m - size * cappedDiv size cap m := by
  have hle : cappedDiv size cap n ≤ cappedDiv size cap m := min_le_min_right cap (Int.ediv_le_ediv hs h.le)
  rcases hle.lt_or_eq with hlt | heq
  · exact .inl hlt
  · refine .inr ⟨heq, ?_⟩
    rw [heq]
    omega

/-- A day: its cycle of 400 years, century, quadrennium and year of the cycle, and its number in a
    year that starts with March. -/
structure Parts where
  cycle : Int
  century : Int
  quad : Int
  year : Int
  day : Int

/-- The parts of a day; 719468 days lie between 0000-03-01 and 1970-01-01. -/
def parts (n : Int) : Parts :=
  let r := (n + 719468) % 146097
  let century := cappedDiv 36524 3 r
  let r₁ := r - 36524 * century
  let quad := r₁ / 1461
  let r₂ := r₁ - 1461 * quad
  let year := cappedDiv 365 3 r₂
  { cycle := (n + 719468) / 146097, century, quad, year, day := r₂ - 365 * year }

/-- The bounds of the parts, and the day they come from. -/
structure Parts.Spec (p : Parts) (n : Int) : Prop where
  century : 0 ≤ p.century ∧ p.century ≤ 3
  quad : 0 ≤ p.quad ∧ p.quad ≤ 24
  year : 0 ≤ p.year ∧ p.year ≤ 3
  day : 0 ≤ p.day ∧ p.day ≤ 365
  sum : n + 719468 =
    146097 * p.cycle + 36524 * p.century + 1461 * p.quad + 365 * p.year + p.day

theorem parts_spec (n : Int) : (parts n).Spec n := by
  have hr₀ : 0 ≤ (n + 719468) % 146097 := by omega
  have hr₁ : (n + 719468) % 146097 ≤ 146096 := by omega
  have hz : n + 719468 = 146097 * ((n + 719468) / 146097) + (n + 719468) % 146097 := by omega
  unfold parts cappedDiv
  simp only
  -- each part is bounded before the next is taken from what it leaves
  generalize (n + 719468) % 146097 = r at *
  generalize (n + 719468) / 146097 = e at *
  have hc₀ : 0 ≤ min (r / 36524) 3 := by omega
  have hc₁ : min (r / 36524) 3 ≤ 3 := by omega
  have hc₂ : 0 ≤ r - 36524 * min (r / 36524) 3 := by omega
  have hc₃ : r - 36524 * min (r / 36524) 3 ≤ 36524 := by omega
  generalize min (r / 36524) 3 = c at *
  generalize hs : r - 36524 * c = s at *
  have hq₀ : 0 ≤ s / 1461 := by omega
  have hq₁ : s / 1461 ≤ 24 := by omega
  have hq₂ : 0 ≤ s - 1461 * (s / 1461) := by omega
  have hq₃ : s - 1461 * (s / 1461) ≤ 1460 := by omega
  generalize s / 1461 = q at *
  generalize ht : s - 1461 * q = t at *
  have ha₀ : 0 ≤ min (t / 365) 3 := by omega
  have ha₁ : min (t / 365) 3 ≤ 3 := by omega
  have ha₂ : 0 ≤ t - 365 * min (t / 365) 3 := by omega
  have ha₃ : t - 365 * min (t / 365) 3 ≤ 365 := by omega
  generalize min (t / 365) 3 = a at *
  exact ⟨⟨hc₀, hc₁⟩, ⟨hq₀, hq₁⟩, ⟨ha₀, ha₁⟩, ⟨ha₂, ha₃⟩, by simp only; omega⟩

/-- The year that starts with March. -/
def marchYear (n : Int) : Int :=
  400 * (parts n).cycle + 100 * (parts n).century + 4 * (parts n).quad + (parts n).year

theorem marchYear_lt {n m : Int} (h : n < m) :
    marchYear n < marchYear m ∨ marchYear n = marchYear m ∧ (parts n).day < (parts m).day := by
  obtain ⟨hc, hq, ha, -, -⟩ := parts_spec n
  obtain ⟨hc', hq', ha', -, -⟩ := parts_spec m
  unfold marchYear
  have hcycle : (parts n).cycle < (parts m).cycle ∨
      (parts n).cycle = (parts m).cycle ∧ (n + 719468) % 146097 < (m + 719468) % 146097 := by
    show (n + 719468) / 146097 < (m + 719468) / 146097 ∨
      (n + 719468) / 146097 = (m + 719468) / 146097 ∧ _
    omega
  rcases hcycle with hlt | ⟨he, hr⟩
  · exact .inl (by omega)
  have hcentury : (parts n).century < (parts m).century ∨
      (parts n).century = (parts m).century ∧
        (n + 719468) % 146097 - 36524 * (parts n).century <
          (m + 719468) % 146097 - 36524 * (parts m).century := cappedDiv_lt (by omega) hr
  rcases hcentury with hlt | ⟨he₁, hr₁⟩
  · exact .inl (by omega)
  have hquad : (parts n).quad < (parts m).quad ∨ (parts n).quad = (parts m).quad ∧
      (n + 719468) % 146097 - 36524 * (parts n).century - 1461 * (parts n).quad <
        (m + 719468) % 146097 - 36524 * (parts m).century - 1461 * (parts m).quad := by
    show (_ - 36524 * (parts n).century) / 1461 < (_ - 36524 * (parts m).century) / 1461 ∨
      (_ - 36524 * (parts n).century) / 1461 = (_ - 36524 * (parts m).century) / 1461 ∧
        _ - 1461 * ((_ - 36524 * (parts n).century) / 1461) <
          _ - 1461 * ((_ - 36524 * (parts m).century) / 1461)
    generalize (n + 719468) % 146097 - 36524 * (parts n).century = s at *
    generalize (m + 719468) % 146097 - 36524 * (parts m).century = s' at *
    omega
  rcases hquad with hlt | ⟨he₂, hr₂⟩
  · exact .inl (by omega)
  have hyear : (parts n).year < (parts m).year ∨
      (parts n).year = (parts m).year ∧ (parts n).day < (parts m).day := cappedDiv_lt (by omega) hr₂
  rcases hyear with hlt | ⟨he₃, hr₃⟩
  · exact .inl (by omega)
  · exact .inr ⟨by omega, hr₃⟩

/-! ## 2. Dates -/

structure Date where
  year : Int
  month : Nat
  day : Nat
  deriving DecidableEq, Repr

/-- The month of a day of the year, counted from March. -/
def marchMonth (day : Int) : Int := (5 * day + 2) / 153

def civil (n : Int) : Date :=
  let month := marchMonth (parts n).day
  { year := if month < 10 then marchYear n else marchYear n + 1
    month := (if month < 10 then month + 3 else month - 9).toNat
    day := ((parts n).day - (153 * month + 2) / 5 + 1).toNat }

def daysOf (date : Date) : Int :=
  let y := if date.month ≤ 2 then date.year - 1 else date.year
  let month : Int := if date.month ≤ 2 then date.month + 9 else date.month - 3
  365 * y + y / 4 - y / 100 + y / 400 + ((153 * month + 2) / 5 + date.day - 1) - 719468

theorem marchMonth_range {day : Int} (h : 0 ≤ day ∧ day ≤ 365) : (0 ≤ marchMonth day ∧ marchMonth day ≤ 11) ∧
      0 ≤ day - (153 * marchMonth day + 2) / 5 ∧ day - (153 * marchMonth day + 2) / 5 ≤ 30 := by
  unfold marchMonth
  omega

theorem civil_range (n : Int) :
    (1 ≤ (civil n).month ∧ (civil n).month ≤ 12) ∧ 1 ≤ (civil n).day ∧ (civil n).day ≤ 31 := by
  have hrange := marchMonth_range (parts_spec n).day
  unfold civil
  simp only
  generalize marchMonth (parts n).day = month at *
  generalize (parts n).day - (153 * month + 2) / 5 = day at *
  split <;> omega

/-- **Dates are ordered as days are.** -/
theorem civil_lt {n m : Int} (h : n < m) : (civil n).year < (civil m).year ∨ (civil n).year = (civil m).year ∧
      ((civil n).month < (civil m).month ∨ (civil n).month = (civil m).month ∧
        (civil n).day < (civil m).day) := by
  have hn := marchMonth_range (parts_spec n).day
  have hm := marchMonth_range (parts_spec m).day
  have hmonth : (parts n).day < (parts m).day →
      marchMonth (parts n).day < marchMonth (parts m).day ∨
        marchMonth (parts n).day = marchMonth (parts m).day ∧
          (parts n).day - (153 * marchMonth (parts n).day + 2) / 5 <
            (parts m).day - (153 * marchMonth (parts m).day + 2) / 5 := by
    intro hd
    have hle : marchMonth (parts n).day ≤ marchMonth (parts m).day := by
      unfold marchMonth
      omega
    rcases hle.lt_or_eq with hlt | heq
    · exact .inl hlt
    · refine .inr ⟨heq, ?_⟩
      rw [heq]
      omega
  have hyear := marchYear_lt h
  unfold civil
  simp only
  generalize marchMonth (parts n).day = month at *
  generalize marchMonth (parts m).day = month' at *
  generalize (parts n).day - (153 * month + 2) / 5 = day at *
  generalize (parts m).day - (153 * month' + 2) / 5 = day' at *
  generalize marchYear n = y at *
  generalize marchYear m = y' at *
  rcases hyear with hlt | ⟨rfl, hd⟩
  · split <;> split <;> omega
  · rcases hmonth hd with hlt | ⟨rfl, hlt⟩
    · split <;> split <;> omega
    · split <;> omega

/-- **The day of a day's date.** -/
theorem daysOf_civil (n : Int) : daysOf (civil n) = n := by
  obtain ⟨hc, hq, ha, hd, hsum⟩ := parts_spec n
  have hrange := marchMonth_range hd
  have hy₁ : marchYear n / 4 = 100 * (parts n).cycle + 25 * (parts n).century + (parts n).quad := by
    unfold marchYear
    omega
  have hy₂ : marchYear n / 100 = 4 * (parts n).cycle + (parts n).century := by
    unfold marchYear
    omega
  have hy₃ : marchYear n / 400 = (parts n).cycle := by
    unfold marchYear
    omega
  have hyear : (if (civil n).month ≤ 2 then (civil n).year - 1 else (civil n).year) = marchYear n := by
    unfold civil
    simp only
    split <;> split <;> omega
  have hmonth : (if (civil n).month ≤ 2 then ((civil n).month : Int) + 9 else (civil n).month - 3) =
      marchMonth (parts n).day := by
    unfold civil
    simp only
    split <;> split <;> omega
  have hday : ((civil n).day : Int) = (parts n).day - (153 * marchMonth (parts n).day + 2) / 5 + 1 := by
    unfold civil
    simp only
    omega
  unfold daysOf
  simp only [hyear, hmonth, hday, hy₁, hy₂, hy₃]
  unfold marchYear
  omega

/-! ## 3. Numerals of fixed width -/

/-- A decimal digit. -/
def digit (n : Nat) : Char := Char.ofNat (48 + n % 10)

/-- The last digits of a number, with leading zeros. -/
def fixed : Nat → Nat → Text
  | 0, _ => []
  | width + 1, n => fixed width (n / 10) ++ [digit n]

@[simp] theorem length_fixed : ∀ width n : Nat, (fixed width n).length = width
  | 0, _ => rfl
  | width + 1, n => by simp [fixed, length_fixed width]

theorem toNat_digit (n : Nat) : (digit n).toNat = 48 + n % 10 := by
  have h : n % 10 < 10 := Nat.mod_lt n (by omega)
  unfold digit
  interval_cases n % 10 <;> rfl

/-- The first and the last digits of a numeral. -/
theorem fixed_add (width : Nat) : ∀ more n : Nat,
    fixed (width + more) n = fixed width (n / 10 ^ more) ++ fixed more n
  | 0, n => by rw [Nat.add_zero, pow_zero, Nat.div_one, fixed, List.append_nil]
  | more + 1, n => by
      rw [← Nat.add_assoc, fixed, fixed_add width more, Nat.div_div_eq_div_mul, ← pow_succ', List.append_assoc]
      rfl

theorem fixed_zero : ∀ width : Nat, fixed width 0 = List.replicate width '0'
  | 0 => rfl
  | width + 1 => by
      rw [fixed, Nat.zero_div, fixed_zero width, List.replicate_succ']
      rfl

theorem digitChar_mod (n : Nat) : Nat.digitChar (n % 10) = digit n := by
  have h : n % 10 < 10 := Nat.mod_lt n (by omega)
  unfold digit
  interval_cases n % 10 <;> rfl

theorem toDigits_eq_fixed (n : Nat) : Nat.toDigits 10 n = fixed (Nat.toDigits 10 n).length n := by
  induction n using Nat.strong_induction_on with
  | _ n ih =>
    by_cases hsmall : n < 10
    · rw [Nat.toDigits_of_lt_base hsmall, ← Nat.mod_eq_of_lt hsmall, digitChar_mod, Nat.mod_eq_of_lt hsmall]
      rfl
    · have hlarge : 10 ≤ n := Nat.le_of_not_lt hsmall
      rw [Nat.toDigits_of_base_le (by decide) hlarge, List.length_append, List.length_singleton, fixed,
        ← ih (n / 10) (by omega), digitChar_mod]

theorem lt_pow_length_toDigits (n : Nat) : n < 10 ^ (Nat.toDigits 10 n).length :=
  (Nat.length_toDigits_le_iff (by decide) Nat.length_toDigits_pos).mp le_rfl

theorem leftpad_toDigits (width n : Nat) :
    List.leftpad width '0' (Nat.toDigits 10 n) = fixed (max width (Nat.toDigits 10 n).length) n := by
  have hwidth : max width (Nat.toDigits 10 n).length =
      (width - (Nat.toDigits 10 n).length) + (Nat.toDigits 10 n).length := by omega
  rw [hwidth, fixed_add, Nat.div_eq_of_lt (lt_pow_length_toDigits n), fixed_zero, ← toDigits_eq_fixed]
  rfl

theorem length_toDigits_mono {n m : Nat} (h : n ≤ m) : (Nat.toDigits 10 n).length ≤ (Nat.toDigits 10 m).length :=
  (Nat.length_toDigits_le_iff (by decide) Nat.length_toDigits_pos).mpr (h.trans_lt (lt_pow_length_toDigits m))

theorem append_lt_left {α : Type} [LT α] : ∀ {a b : List α} (c d : List α), a.length = b.length → a < b →
    a ++ c < b ++ d
  | [], [], _, _, _, h => absurd h (List.not_lt_nil _)
  | x :: a, y :: b, c, d, hlen, h => by
      rw [List.cons_append, List.cons_append, List.cons_lt_cons_iff]
      rcases List.cons_lt_cons_iff.mp h with hxy | ⟨hxy, hab⟩
      · exact .inl hxy
      · exact .inr ⟨hxy, append_lt_left c d (by simpa using hlen) hab⟩

theorem append_lt_right : ∀ (a : Text) {c d : Text}, c < d → a ++ c < a ++ d
  | [], _, _, h => h
  | _ :: a, _, _, h => List.cons_lt_cons_iff.mpr (.inr ⟨rfl, append_lt_right a h⟩)

/-- **Numerals of one width compare as their numbers do.** -/
theorem fixed_lt : ∀ {width n m : Nat}, n < m → m < 10 ^ width → fixed width n < fixed width m
  | 0, n, m, h, hm => by simp at hm; omega
  | width + 1, n, m, h, hm => by
      rw [fixed, fixed]
      have hm' : m / 10 < 10 ^ width := by
        rw [pow_succ] at hm
        omega
      by_cases hlt : n / 10 < m / 10
      · exact append_lt_left _ _ (by simp) (fixed_lt hlt hm')
      · have heq : n / 10 = m / 10 := by omega
        rw [heq]
        refine append_lt_right _ (List.cons_lt_cons_iff.mpr (.inl ?_))
        show (digit n).toNat < (digit m).toNat
        rw [toNat_digit, toNat_digit]
        omega

/-- Fields compare by the first, and by what follows where that is equal. -/
theorem field_lt {width n m : Nat} {a b : Text} (hm : m < 10 ^ width)
    (h : n < m ∨ n = m ∧ a < b) : fixed width n ++ a < fixed width m ++ b := by
  rcases h with h | ⟨rfl, h⟩
  · exact append_lt_left a b (by simp) (fixed_lt h hm)
  · exact append_lt_right _ h

theorem cons_lt {c : Char} {a b : Text} (h : a < b) : c :: a < c :: b :=
  List.cons_lt_cons_iff.mpr (.inr ⟨rfl, h⟩)

/-- The number a numeral stands for, `none` when a character is no digit. -/
def numeral : Text → Nat → Option Nat
  | [], n => some n
  | c :: text, n => if c.isDigit then numeral text (10 * n + (c.toNat - 48)) else none

theorem isDigit_digit (n : Nat) : (digit n).isDigit = true := by
  have h : n % 10 < 10 := Nat.mod_lt n (by omega)
  unfold digit
  interval_cases n % 10 <;> rfl

theorem numeral_append : ∀ (a b : Text) (n : Nat), numeral (a ++ b) n = (numeral a n).bind (numeral b)
  | [], _, _ => rfl
  | c :: a, b, n => by
      rw [List.cons_append, numeral, numeral]
      split
      · exact numeral_append a b _
      · rfl

theorem numeral_fixed : ∀ {width n : Nat}, n < 10 ^ width → numeral (fixed width n) 0 = some n
  | 0, n, h => by
      simp at h
      rw [h]
      rfl
  | width + 1, n, h => by
      have h' : n / 10 < 10 ^ width := by
        rw [pow_succ] at h
        omega
      rw [fixed, numeral_append, numeral_fixed h', Option.bind_some, numeral, isDigit_digit,
        if_pos rfl, toNat_digit, numeral]
      congr 1
      omega

end Ceres.Library
