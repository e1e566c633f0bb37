/-
  File:      Ceres/Database/Timestamp.lean
  Subject:   TIMESTAMPS AS TEXT (`store.rs`: `Parameter::timestamp_text`;
             `ceres-entities/src/timestamp.rs`: `Timestamp::to_wire`).

  An instant is a number of microseconds since the epoch. The SQLite family stores and compares the
  text of it; the wire carries RFC 3339. A year outside of 0 to 9999 is written with a sign and with as
  many digits as it has: a sign sorts before every digit, a plus before a minus, and the digits of a longer
  number by the first of them.

  * `timestampText`, `toWire` -- the two renderings; `parseRfc3339` -- how a record's wire form is read;
  * `InYears` -- the instant lies in the years 0 to 9999, those of four digits without a sign;
  * `InOrder` -- an earlier and a later year whose texts are in order; `yearText_lt`, `yearText_gt`;
  * **`timestampText_before`** -- the texts of two instants are in the order of time where those of their
    years are, and else in the reverse; `timestampText_lt_iff` -- so they are in the years 0 to 9999;
  * `parseRfc3339_toWire` -- and the wire form gives the instant back.
-/
import Ceres.Library.Calendar

namespace Ceres.Database

open Ceres.Library

/-! ## 1. Renderings -/

/-- Microseconds of a day. -/
def DAY : Int := 86400000000

/-- The date of an instant. -/
def dateOf (t : Int) : Date := civil (t / DAY)

/-- The microsecond of the day. -/
def timeOf (t : Int) : Nat := (t % DAY).toNat

def hourOf (t : Int) : Nat := timeOf t / 3600000000

def minuteOf (t : Int) : Nat := timeOf t / 60000000 % 60

def secondOf (t : Int) : Nat := timeOf t / 1000000 % 60

def microOf (t : Int) : Nat := timeOf t % 1000000

/-- A year as `%Y` writes it: four digits, and a sign outside of 0 to 9999. -/
def yearText (year : Int) : Text :=
  if 0 ≤ year ∧ year ≤ 9999 then fixed 4 year.toNat
  else (if year < 0 then '-' else '+') :: List.leftpad 4 '0' (Nat.toDigits 10 year.natAbs)

/-- The date and the time to the second, with what stands between them. -/
def secondText (between : Char) (t : Int) : Text :=
  yearText (dateOf t).year ++ '-' :: fixed 2 (dateOf t).month ++ '-' :: fixed 2 (dateOf t).day ++
    between :: fixed 2 (hourOf t) ++ ':' :: fixed 2 (minuteOf t) ++ ':' :: fixed 2 (secondOf t)

/-- The text the SQLite family stores, `%Y-%m-%d %H:%M:%S%.6f`. -/
def timestampText (t : Int) : Text := secondText ' ' t ++ '.' :: fixed 6 (microOf t)

/-- The wire form, with six digits of the second when it has a fraction and none otherwise. -/
def toWire (t : Int) : Text :=
  if microOf t = 0 then secondText 'T' t ++ ['Z']
  else secondText 'T' t ++ '.' :: fixed 6 (microOf t) ++ ['Z']

/-- The microseconds behind the second of a wire form. -/
def parseFraction : Text → Option Nat
  | ['Z'] => some 0
  | ['.', a, b, c, d, e, f, 'Z'] => numeral [a, b, c, d, e, f] 0
  | _ => none

/-- Read the wire form of a record. -/
def parseRfc3339 (text : Text) : Option Int :=
  match text with
  | y₁ :: y₂ :: y₃ :: y₄ :: '-' :: m₁ :: m₂ :: '-' :: d₁ :: d₂ :: 'T' :: h₁ :: h₂ :: ':' :: n₁ :: n₂ ::
      ':' :: s₁ :: s₂ :: rest => do
    let year ← numeral [y₁, y₂, y₃, y₄] 0
    let month ← numeral [m₁, m₂] 0
    let day ← numeral [d₁, d₂] 0
    let hour ← numeral [h₁, h₂] 0
    let minute ← numeral [n₁, n₂] 0
    let second ← numeral [s₁, s₂] 0
    let micro ← parseFraction rest
    return daysOf { year, month, day } * DAY +
      (((hour * 60 + minute) * 60 + second) * 1000000 + micro : Nat)
  | _ => none

/-! ## 2. Instants of the years 0 to 9999 -/

/-- The instant lies in the years that `%Y` writes with four digits and no sign. -/
def InYears (t : Int) : Prop := 0 ≤ (dateOf t).year ∧ (dateOf t).year ≤ 9999

instance (t : Int) : Decidable (InYears t) := by
  unfold InYears
  infer_instance

theorem timeOf_lt (t : Int) : timeOf t < 86400000000 := by
  unfold timeOf DAY
  omega

theorem instant_eq (t : Int) : t = t / DAY * DAY + timeOf t := by
  unfold timeOf DAY
  omega

variable {t u : Int}

theorem fields_lt (h : t < u) : (dateOf t).year < (dateOf u).year ∨ (dateOf t).year = (dateOf u).year ∧
      ((dateOf t).month < (dateOf u).month ∨ (dateOf t).month = (dateOf u).month ∧
        ((dateOf t).day < (dateOf u).day ∨ (dateOf t).day = (dateOf u).day ∧
          (hourOf t < hourOf u ∨ hourOf t = hourOf u ∧ (minuteOf t < minuteOf u ∨ minuteOf t = minuteOf u ∧
              (secondOf t < secondOf u ∨ secondOf t = secondOf u ∧ microOf t < microOf u))))) := by
  have hday : t / DAY < u / DAY ∨ t / DAY = u / DAY ∧ timeOf t < timeOf u := by
    have ht := instant_eq t
    have hu := instant_eq u
    have hlt := timeOf_lt t
    have hlu := timeOf_lt u
    unfold DAY at *
    omega
  rcases hday with hday | ⟨hday, htime⟩
  · have hcivil := civil_lt hday
    unfold dateOf
    omega
  · have hdate : dateOf t = dateOf u := by rw [dateOf, dateOf, hday]
    have hclock : hourOf t < hourOf u ∨ hourOf t = hourOf u ∧
        (minuteOf t < minuteOf u ∨ minuteOf t = minuteOf u ∧
          (secondOf t < secondOf u ∨ secondOf t = secondOf u ∧ microOf t < microOf u)) := by
      unfold hourOf minuteOf secondOf microOf
      omega
    rw [hdate]
    simpa using hclock

theorem clock_range (t : Int) : hourOf t < 24 ∧ minuteOf t < 60 ∧ secondOf t < 60 ∧ microOf t < 1000000 := by
  have := timeOf_lt t
  unfold hourOf minuteOf secondOf microOf
  omega

theorem year_mono (h : t ≤ u) : (dateOf t).year ≤ (dateOf u).year := by
  rcases eq_or_lt_of_le h with rfl | hlt
  · exact le_refl _
  · have := fields_lt hlt
    omega

/-! ## 3. Years -/

/-- How many digits a year outside of 0 to 9999 has. -/
def yearDigits (n : Nat) : Nat := max 4 (Nat.toDigits 10 n).length

/-- The number that the first digits of `b` make, as many as `a` has. -/
def leading (a b : Nat) : Nat := b / 10 ^ (yearDigits b - yearDigits a)

/-- A year and a later one: the later has four digits and no sign; or both have a plus, and the earlier is at
    most what the later begins with; or both have a minus, and the earlier begins with less than the later. -/
def InOrder (y z : Int) : Prop :=
  (0 ≤ z ∧ z ≤ 9999) ∨ (9999 < y ∧ y.natAbs ≤ leading y.natAbs z.natAbs) ∨
    (z < 0 ∧ leading z.natAbs y.natAbs < z.natAbs)

instance (y z : Int) : Decidable (InOrder y z) := by
  unfold InOrder
  infer_instance

theorem lt_yearDigits (n : Nat) : n < 10 ^ yearDigits n :=
  (lt_pow_length_toDigits n).trans_le (Nat.pow_le_pow_right (by decide) (le_max_right _ _))

theorem yearDigits_mono {a b : Nat} (h : a ≤ b) : yearDigits a ≤ yearDigits b :=
  max_le_max_left 4 (length_toDigits_mono h)

theorem minus_lt_digit (n : Nat) : '-' < digit n := by
  show '-'.toNat < (digit n).toNat
  rw [toNat_digit]
  exact Nat.lt_of_lt_of_le (by decide : '-'.toNat < 48) (Nat.le_add_right _ _)

theorem plus_lt_digit (n : Nat) : '+' < digit n :=
  lt_trans (by decide : '+' < '-') (minus_lt_digit n)

/-- Numerals of which one may be longer: with a minus behind them the first digits decide, and the shorter
    sorts first where these are equal. -/
theorem short_lt_long {width more m n : Nat} (hn : n < 10 ^ (width + more))
    (h : m < n / 10 ^ more ∨ m = n / 10 ^ more ∧ 0 < more) (a b : Text) :
    fixed width m ++ '-' :: a < fixed (width + more) n ++ '-' :: b := by
  have hfirst : n / 10 ^ more < 10 ^ width := Nat.div_lt_of_lt_mul (by rwa [← pow_add, Nat.add_comm])
  rw [fixed_add, List.append_assoc]
  refine field_lt hfirst (h.imp id fun h => ⟨h.1, ?_⟩)
  obtain ⟨more, rfl⟩ : ∃ k, more = 1 + k := ⟨more - 1, by omega⟩
  rw [fixed_add]
  exact List.cons_lt_cons_iff.mpr (.inl (minus_lt_digit _))

theorem long_lt_short {width more m n : Nat} (hm : m < 10 ^ width) (h : n / 10 ^ more < m) (a b : Text) :
    fixed (width + more) n ++ '-' :: b < fixed width m ++ '-' :: a := by
  rw [fixed_add, List.append_assoc]
  exact field_lt hm (.inl h)

theorem years_lt {a b : Nat} (hab : a < b) (h : a ≤ leading a b) (x y : Text) :
    fixed (yearDigits a) a ++ '-' :: x < fixed (yearDigits b) b ++ '-' :: y := by
  have hwidth : yearDigits b = yearDigits a + (yearDigits b - yearDigits a) := by
    have := yearDigits_mono hab.le
    omega
  have hb := lt_yearDigits b
  rw [hwidth] at hb ⊢
  refine short_lt_long hb ?_ x y
  rcases h.lt_or_eq with hlt | heq
  · exact .inl hlt
  · refine .inr ⟨heq, Nat.pos_of_ne_zero fun hsame => ?_⟩
    -- of one length, they are the same number
    rw [leading, hsame, pow_zero, Nat.div_one] at heq
    exact hab.ne heq

theorem years_gt {a b : Nat} (hab : a < b) (h : leading a b < a) (x y : Text) :
    fixed (yearDigits b) b ++ '-' :: y < fixed (yearDigits a) a ++ '-' :: x := by
  have hwidth : yearDigits b = yearDigits a + (yearDigits b - yearDigits a) := by
    have := yearDigits_mono hab.le
    omega
  rw [hwidth]
  exact long_lt_short (lt_yearDigits a) h x y

theorem yearText_plain {y : Int} (h : 0 ≤ y ∧ y ≤ 9999) : yearText y = fixed 4 y.toNat := if_pos h

theorem yearText_plus {y : Int} (h : 9999 < y) : yearText y = '+' :: fixed (yearDigits y.natAbs) y.natAbs := by
  rw [yearText, if_neg (by omega), if_neg (by omega), leftpad_toDigits]
  rfl

theorem yearText_minus {y : Int} (h : y < 0) : yearText y = '-' :: fixed (yearDigits y.natAbs) y.natAbs := by
  rw [yearText, if_neg (by omega), if_pos h, leftpad_toDigits]
  rfl

theorem sign_lt_year {sign : Char} (h : ∀ n, sign < digit n) (n : Nat) (a b : Text) :
    sign :: a < fixed 4 n ++ b := by
  have hhead : fixed 4 n = digit (n / 10 ^ 3) :: fixed 3 n := fixed_add 1 3 n
  rw [hhead]
  exact List.cons_lt_cons_iff.mpr (.inl (h _))

/-- **The texts of two years are in order** where the later follows in it. -/
theorem yearText_lt {y z : Int} (hyz : y < z) (h : InOrder y z) (a b : Text) :
    yearText y ++ '-' :: a < yearText z ++ '-' :: b := by
  rcases h with hplain | ⟨hplus, hdigits⟩ | ⟨hminus, hdigits⟩
  · rw [yearText_plain hplain]
    by_cases hy : 0 ≤ y
    · rw [yearText_plain ⟨hy, by omega⟩]
      exact field_lt (by omega) (.inl (by omega))
    · rw [yearText_minus (by omega)]
      exact sign_lt_year minus_lt_digit _ _ _
  · rw [yearText_plus hplus, yearText_plus (hplus.trans hyz)]
    exact cons_lt (years_lt (by omega) hdigits a b)
  · rw [yearText_minus hminus, yearText_minus (hyz.trans hminus)]
    exact cons_lt (years_gt (by omega) hdigits b a)

/-- And out of order where it does not. -/
theorem yearText_gt {y z : Int} (hyz : y < z) (h : ¬ InOrder y z) (a b : Text) :
    yearText z ++ '-' :: b < yearText y ++ '-' :: a := by
  simp only [InOrder, not_or, not_and, not_lt, not_le] at h
  obtain ⟨hplain, hplus, hminus⟩ := h
  by_cases hz : z < 0
  · rw [yearText_minus hz, yearText_minus (hyz.trans hz)]
    exact cons_lt (years_lt (by omega) (hminus hz) b a)
  · have hlate : 9999 < z := hplain (by omega)
    rw [yearText_plus hlate]
    by_cases hy : 9999 < y
    · rw [yearText_plus hy]
      exact cons_lt (years_gt (by omega) (hplus hy) a b)
    · by_cases hneg : y < 0
      · rw [yearText_minus hneg]
        exact List.cons_lt_cons_iff.mpr (.inl (by decide))
      · rw [yearText_plain (by omega)]
        exact sign_lt_year plus_lt_digit _ _ _

/-! ## 4. The order of the stored texts -/

/-- The stored text behind the year. -/
def fieldsText (t : Int) : Text :=
  fixed 2 (dateOf t).month ++ '-' :: fixed 2 (dateOf t).day ++ ' ' :: fixed 2 (hourOf t) ++
    ':' :: fixed 2 (minuteOf t) ++ ':' :: fixed 2 (secondOf t) ++ '.' :: fixed 6 (microOf t)

theorem timestampText_split (t : Int) : timestampText t = yearText (dateOf t).year ++ '-' :: fieldsText t := by
  simp only [timestampText, secondText, fieldsText, List.append_assoc, List.cons_append]

theorem fieldsText_lt (hyear : (dateOf t).year = (dateOf u).year) (h : t < u) : fieldsText t < fieldsText u := by
  obtain ⟨hh, hm, hs, hf⟩ := clock_range u
  obtain ⟨hmonth, hday⟩ := civil_range (u / DAY)
  have hf := ((fields_lt h).resolve_left (by omega)).2
  simp only [fieldsText, List.append_assoc, List.cons_append]
  -- field by field: the first that differs decides
  refine field_lt (by unfold dateOf; omega) (hf.imp id fun hf => ⟨hf.1, ?_⟩)
  refine cons_lt (field_lt (by unfold dateOf; omega) (hf.2.imp id fun hf => ⟨hf.1, ?_⟩))
  refine cons_lt (field_lt (by omega) (hf.2.imp id fun hf => ⟨hf.1, ?_⟩))
  refine cons_lt (field_lt (by omega) (hf.2.imp id fun hf => ⟨hf.1, ?_⟩))
  refine cons_lt (field_lt (by omega) (hf.2.imp id fun hf => ⟨hf.1, ?_⟩))
  exact cons_lt (fixed_lt hf.2 (by omega))

/-- The years of the two instants are one, or follow each other in order. -/
def YearsOrdered (t u : Int) : Prop :=
  ((dateOf t).year < (dateOf u).year → InOrder (dateOf t).year (dateOf u).year) ∧
    ((dateOf u).year < (dateOf t).year → InOrder (dateOf u).year (dateOf t).year)

instance (t u : Int) : Decidable (YearsOrdered t u) := by
  unfold YearsOrdered
  infer_instance

theorem YearsOrdered.symm (h : YearsOrdered t u) : YearsOrdered u t := ⟨h.2, h.1⟩

theorem YearsOrdered.refl (t : Int) : YearsOrdered t t :=
  ⟨fun hlt => absurd hlt (lt_irrefl _), fun hlt => absurd hlt (lt_irrefl _)⟩

/-- An earlier instant's text sorts first, where the years do; and else last. -/
theorem timestampText_before (h : t < u) : (YearsOrdered t u → timestampText t < timestampText u) ∧
      (¬ YearsOrdered t u → timestampText u < timestampText t) := by
  have hnot : ¬ (dateOf u).year < (dateOf t).year := not_lt.mpr (year_mono h.le)
  rw [timestampText_split, timestampText_split]
  rcases (year_mono h.le).lt_or_eq with hyear | hyear
  · have hiff : YearsOrdered t u ↔ InOrder (dateOf t).year (dateOf u).year :=
      ⟨fun ho => ho.1 hyear, fun ho => ⟨fun _ => ho, fun hlt => absurd hlt hnot⟩⟩
    rw [hiff]
    exact ⟨fun ho => yearText_lt hyear ho _ _, fun ho => yearText_gt hyear ho _ _⟩
  · have hsame : YearsOrdered t u := ⟨fun hlt => absurd hyear hlt.ne, fun hlt => absurd hlt hnot⟩
    rw [hyear]
    exact ⟨fun _ => append_lt_right _ (cons_lt (fieldsText_lt hyear h)), fun hne => absurd hsame hne⟩

/-- Different instants have different texts, in order or not. -/
theorem timestampText_injective : Function.Injective timestampText := by
  intro t u h
  have hne : ∀ {t u : Int}, t < u → timestampText t ≠ timestampText u := by
    intro t u hlt heq
    by_cases ho : YearsOrdered t u
    · exact absurd heq ((timestampText_before hlt).1 ho).ne
    · exact absurd heq.symm ((timestampText_before hlt).2 ho).ne
  rcases lt_trichotomy t u with hlt | heq | hgt
  · exact absurd h (hne hlt)
  · exact heq
  · exact absurd h.symm (hne hgt)

theorem yearsOrdered_of_inYears (ht : InYears t) (hu : InYears u) : YearsOrdered t u :=
  ⟨fun _ => .inl hu, fun _ => .inl ht⟩

/-- **In the years 0 to 9999 the stored text orders as time does.** -/
theorem timestampText_lt_iff (ht : InYears t) (hu : InYears u) : timestampText t < timestampText u ↔ t < u := by
  have ho := yearsOrdered_of_inYears ht hu
  refine ⟨fun h => ?_, fun h => (timestampText_before h).1 ho⟩
  rcases lt_trichotomy t u with hlt | rfl | hgt
  · exact hlt
  · exact absurd h (lt_irrefl _)
  · exact absurd (h.trans ((timestampText_before hgt).1 ho.symm)) (lt_irrefl _)

theorem timestampText_outside (ht : ¬ InYears t) (hu : InYears u) : timestampText t < timestampText u := by
  rw [timestampText_split, timestampText_split, yearText_plain hu]
  by_cases hneg : (dateOf t).year < 0
  · rw [yearText_minus hneg]
    exact sign_lt_year minus_lt_digit _ _ _
  · rw [yearText_plus (by unfold InYears at ht; omega)]
    exact sign_lt_year plus_lt_digit _ _ _

/-! ## 5. The wire form -/

theorem instant_of_fields (t : Int) : daysOf (dateOf t) * DAY +
      (((hourOf t * 60 + minuteOf t) * 60 + secondOf t) * 1000000 + microOf t : Nat) = t := by
  have hday : daysOf (dateOf t) = t / DAY := daysOf_civil _
  have htime : ((hourOf t * 60 + minuteOf t) * 60 + secondOf t) * 1000000 + microOf t = timeOf t := by
    unfold hourOf minuteOf secondOf microOf
    omega
  rw [hday, htime]
  exact (instant_eq t).symm

theorem fixed_two (n : Nat) : fixed 2 n = [digit (n / 10), digit n] := rfl

theorem fixed_four (n : Nat) :
    fixed 4 n = [digit (n / 10 / 10 / 10), digit (n / 10 / 10), digit (n / 10), digit n] := rfl

theorem parseRfc3339_secondText {t : Int} (h : InYears t) (rest : Text) :
    parseRfc3339 (secondText 'T' t ++ rest) = (parseFraction rest).map fun micro => daysOf (dateOf t) * DAY +
        (((hourOf t * 60 + minuteOf t) * 60 + secondOf t) * 1000000 + micro : Nat) := by
  obtain ⟨hh, hm, hs, -⟩ := clock_range t
  obtain ⟨hmonth, hday⟩ := civil_range (t / DAY)
  have hyear := h.2
  have hyear₀ := h.1
  have h₁ := @numeral_fixed 4 (dateOf t).year.toNat (by omega)
  have h₂ := @numeral_fixed 2 (dateOf t).month (by unfold dateOf; omega)
  have h₃ := @numeral_fixed 2 (dateOf t).day (by unfold dateOf; omega)
  have h₄ := @numeral_fixed 2 (hourOf t) (by omega)
  have h₅ := @numeral_fixed 2 (minuteOf t) (by omega)
  have h₆ := @numeral_fixed 2 (secondOf t) (by omega)
  rw [fixed_four] at h₁
  rw [fixed_two] at h₂ h₃ h₄ h₅ h₆
  have hcast : ((dateOf t).year.toNat : Int) = (dateOf t).year := by omega
  simp only [secondText, yearText_plain h, fixed_four, fixed_two, List.cons_append,
    List.nil_append, parseRfc3339, h₁, h₂, h₃, h₄, h₅, h₆]
  cases parseFraction rest with
  | none => rfl
  | some micro =>
    show some _ = some _
    rw [hcast]

/-- **A record's wire form gives its instant back.** -/
theorem parseRfc3339_toWire {t : Int} (h : InYears t) : parseRfc3339 (toWire t) = some t := by
  obtain ⟨-, -, -, hmicro⟩ := clock_range t
  unfold toWire
  split
  · rename_i h₀
    rw [parseRfc3339_secondText h, parseFraction, Option.map_some, ← h₀, instant_of_fields]
  · rw [List.append_assoc, parseRfc3339_secondText h]
    have hfraction : parseFraction ('.' :: fixed 6 (microOf t) ++ ['Z']) = some (microOf t) :=
      @numeral_fixed 6 _ (by omega)
    rw [hfraction, Option.map_some, instant_of_fields]

end Ceres.Database
