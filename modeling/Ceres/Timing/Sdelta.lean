/-
  File:      Ceres/Timing/Sdelta.lean
  Subject:   SUFFIXED DURATIONS (`ceres/timing.py`: `sdelta`, `_parse_sdelta`).

  A duration is shown as a number of the unit that fits it and read back. Floats are exact rationals, the
  quotient of a `timedelta` is a whole number of microseconds.

  * `parseSdelta`, `sdelta` -- the reader and the writer;
  * `read_pointText` -- a number with a point is worth as much without the zeros at its end;
  * `numberOf_spec`, `shown_spec` -- the number of a duration, and how far what is shown is from it;
  * **`parse_sdelta_iff`** -- the duration comes back within the rounding, unless no decimals are asked for and
    the whole number ends in a zero, or the shown number is beyond the largest `timedelta`;
  * `ten_seconds_shown` -- ten seconds without decimals.
-/
import Ceres.Library.Numeral

namespace Ceres.Timing

open Ceres.Library

/-! ## 1. Reading -/

/-- `str.isspace`: whitespace, and four separators of ASCII. -/
def isSpace (c : Char) : Bool := isWhitespace c || (0x1c ≤ c.toNat && c.toNat ≤ 0x1f)

def strip (text : Text) : Text := (text.dropWhile isSpace).rdropWhile isSpace

/-- Stripped, without blanks, in lower case. Only a letter of ASCII becomes one that a number or a suffix has. -/
def normalized (text : Text) : Text := ((strip text).filter (· ≠ ' ')).map Char.toLower

inductive DeltaUnit where
  | us | ms | s | m | h | d
deriving DecidableEq

namespace DeltaUnit

def suffix : DeltaUnit → Text
  | us => ['u', 's']
  | ms => ['m', 's']
  | s => ['s']
  | m => ['m']
  | h => ['h']
  | d => ['d']

def micros : DeltaUnit → Nat
  | us => 1
  | ms => 1000
  | s => 1000000
  | m => 60000000
  | h => 3600000000
  | d => 86400000000

end DeltaUnit

/-- In the order they are tried. -/
def UNITS : List DeltaUnit := [.us, .ms, .s, .m, .h, .d]

/-- The microseconds of a thousand million days, more than a `timedelta` holds. -/
def MICROS_LIMIT : Int := 86400000000 * 10 ^ 9

/-- `timedelta(...)` of a number of microseconds; an `OverflowError` beyond its range. -/
def timedelta (micros : ℚ) : Option Int :=
  if 86400000000 - MICROS_LIMIT ≤ roundHalfEven micros ∧ roundHalfEven micros < MICROS_LIMIT then
    some (roundHalfEven micros)
  else none

/-- A float of the unit; no number and infinity are errors. -/
def fromFloat (unit : DeltaUnit) : Numeral → Option Int
  | .finite value => timedelta (value * unit.micros)
  | _ => none

def parseSdelta (digits : DecimalDigits) (text : Text) : Option Int :=
  (UNITS.find? fun unit => unit.suffix.isSuffixOf (normalized text)).bind fun unit =>
    (readFloat digits ((normalized text).take ((normalized text).length - unit.suffix.length))).bind (fromFloat unit)

/-! ## 2. Writing -/

/-- `(value / n).total_seconds()` -/
def dividedSeconds (value n : Nat) : ℚ := roundHalfEven (value / n) / 10 ^ 6

def numberOf (value : Nat) : ℚ × DeltaUnit :=
  if value < 1000 then (value, .us)
  else if value < 1000000 then (value / 1000, .ms)
  else if value < 60000000 then (value / 10 ^ 6, .s)
  else if value < 3600000000 then (dividedSeconds value 60, .m)
  else if value < 86400000000 then (dividedSeconds value (60 * 60), .h)
  else (dividedSeconds value (60 * 60 * 24), .d)

/-- The digits of a number, a point before the last ones. -/
def pointText (decimals n : Nat) : Text :=
  Nat.toDigits 10 (n / 10 ^ decimals) ++ '.' :: List.leftpad decimals '0' (Nat.toDigits 10 (n % 10 ^ decimals))

/-- `f"{number:.{decimals}f}"` -/
def fixedText (decimals : Nat) (number : ℚ) : Text :=
  let n := (roundHalfEven (number * 10 ^ decimals)).toNat
  if decimals = 0 then Nat.toDigits 10 n else pointText decimals n

/-- `f"{number}"`: all decimals and at least one. A number here has six at most. -/
def naturalText (number : ℚ) : Text :=
  let text := (pointText 6 (roundHalfEven (number * 10 ^ 6)).toNat).rdropWhile (· == '0')
  if ['.'].isSuffixOf text then text ++ ['0'] else text

def numberText (decimals : Option Nat) (number : ℚ) : Text :=
  match decimals with
  | some decimals => fixedText decimals number
  | none => naturalText number

/-- `.rstrip("0").rstrip(".")` -/
def strippedText (text : Text) : Text := (text.rdropWhile (· == '0')).rdropWhile (· == '.')

def sdelta (value : Nat) (decimals : Option Nat) (space : Bool) : Text :=
  strippedText (numberText decimals (numberOf value).1) ++ (if space then [' '] else []) ++ (numberOf value).2.suffix

/-! ## 3. A number with its unit is read -/

/-- Digits and points. -/
def Plain (text : Text) : Prop := ∀ c ∈ text, c.isDigit = true ∨ c = '.'

theorem numeralChar_plain {c : Char} (h : c.isDigit = true ∨ c = '.') : numeralChar c = true := by
  obtain hdigit | rfl := h
  · exact digit_numeralChar hdigit
  · rfl

theorem not_space {c : Char} (h : c.isDigit = true ∨ c = '.') : isSpace c = false := by
  obtain hdigit | rfl := h
  · have hrange := Char.isDigit_iff_toNat.mp hdigit
    have hlow : 48 ≤ c.toNat := hrange.1
    unfold isSpace
    rw [numeralChar_not_whitespace (digit_numeralChar hdigit), Bool.false_or, Bool.and_eq_false_iff]
    exact .inr (decide_eq_false (by omega))
  · decide

theorem toLower_plain {c : Char} (h : c.isDigit = true ∨ c = '.') : c.toLower = c := by
  obtain hdigit | rfl := h
  · have hlast : c.val ≤ 57 := of_decide_eq_true ((Bool.and_eq_true_iff.mp hdigit).2)
    unfold Char.toLower
    split
    · rename_i hupper
      have hbetween : (65 : UInt32) ≤ 57 := UInt32.le_trans hupper.1 hlast
      exact absurd hbetween (by decide)
    · rfl
  · rfl

theorem strip_of_ends {first last : Char} {text middle : Text} (hstart : ∃ rest, text = first :: rest)
    (hend : text = middle ++ [last]) (hfirst : isSpace first = false) (hlast : isSpace last = false) :
    strip text = text := by
  obtain ⟨rest, hrest⟩ := hstart
  have hdrop : text.dropWhile isSpace = text := by
    rw [hrest, List.dropWhile_cons_of_neg (by rw [hfirst]; exact Bool.false_ne_true)]
  unfold strip
  rw [hdrop, hend, List.rdropWhile_concat_neg _ _ _ (by rw [hlast]; exact Bool.false_ne_true)]

theorem suffix_last (unit : DeltaUnit) : ∃ front last, unit.suffix = front ++ [last] ∧ isSpace last = false ∧
      (∀ c ∈ unit.suffix, c ≠ ' ' ∧ c.toLower = c) := by
  cases unit with
  | us => exact ⟨['u'], 's', rfl, by decide, List.all_iff_forall_prop.mp (by decide)⟩
  | ms => exact ⟨['m'], 's', rfl, by decide, List.all_iff_forall_prop.mp (by decide)⟩
  | s => exact ⟨[], 's', rfl, by decide, List.all_iff_forall_prop.mp (by decide)⟩
  | m => exact ⟨[], 'm', rfl, by decide, List.all_iff_forall_prop.mp (by decide)⟩
  | h => exact ⟨[], 'h', rfl, by decide, List.all_iff_forall_prop.mp (by decide)⟩
  | d => exact ⟨[], 'd', rfl, by decide, List.all_iff_forall_prop.mp (by decide)⟩

theorem normalized_written {number blank : Text} (hplain : Plain number) (hne : number ≠ [])
    (hblank : blank = [] ∨ blank = [' ']) (unit : DeltaUnit) :
    normalized (number ++ blank ++ unit.suffix) = number ++ unit.suffix := by
  obtain ⟨front, last, hsuffix, hlast, hletters⟩ := suffix_last unit
  have hstrip : strip (number ++ blank ++ unit.suffix) = number ++ blank ++ unit.suffix := by
    cases number with
    | nil => exact absurd rfl hne
    | cons c number =>
      have hstart : ∃ rest, c :: number ++ blank ++ unit.suffix = c :: rest := ⟨number ++ blank ++ unit.suffix, by simp⟩
      have hend : c :: number ++ blank ++ unit.suffix = (c :: number ++ blank ++ front) ++ [last] := by
        rw [hsuffix, List.append_assoc (c :: number ++ blank)]
      exact strip_of_ends hstart hend (not_space (hplain c List.mem_cons_self)) hlast
  have hkeep : ∀ text : Text, (∀ c ∈ text, c ≠ ' ' ∧ c.toLower = c) →
      (text.filter (· ≠ ' ')).map Char.toLower = text := by
    intro text h
    rw [List.filter_eq_self.mpr fun c hc => decide_eq_true (h c hc).1]
    exact (List.map_congr_left fun c hc => (h c hc).2).trans (List.map_id text)
  have hnumber : ∀ c ∈ number, c ≠ ' ' ∧ c.toLower = c := by
    refine fun c hc => ⟨?_, toLower_plain (hplain c hc)⟩
    rintro rfl
    exact absurd (not_space (hplain ' ' hc)) (by decide)
  have hblank' : (blank.filter (· ≠ ' ')).map Char.toLower = [] := by
    obtain rfl | rfl := hblank
    · rfl
    · rfl
  unfold normalized
  rw [hstrip, List.filter_append, List.filter_append, List.map_append, List.map_append, hkeep number hnumber, hblank',
    hkeep unit.suffix hletters, List.append_nil]

/-- The suffix behind a number that ends in none of the letters of a longer one. -/
theorem find_unit {number : Text} {last : Char} (hlast : number.getLast? = some last) (hu : last ≠ 'u')
    (hm : last ≠ 'm') (unit : DeltaUnit) :
    UNITS.find? (fun unit' => unit'.suffix.isSuffixOf (number ++ unit.suffix)) = some unit := by
  obtain ⟨front, rfl⟩ := List.getLast?_eq_some_iff.mp hlast
  have hu' : ('u' == last) = false := beq_eq_false_iff_ne.mpr (Ne.symm hu)
  have hm' : ('m' == last) = false := beq_eq_false_iff_ne.mpr (Ne.symm hm)
  cases unit <;> simp [UNITS, DeltaUnit.suffix, List.find?, List.isSuffixOf, List.isPrefixOf, hu', hm']

theorem take_number (number suffix : Text) :
    (number ++ suffix).take ((number ++ suffix).length - suffix.length) = number := by
  rw [List.length_append, Nat.add_sub_cancel, List.take_left]

/-- **A plain number with its unit, and a blank between them or not, is read as what it says.** -/
theorem parse_written (digits : DecimalDigits) {number blank : Text} {x : ℚ} (hplain : Plain number)
    (hread : readNumeral number = some (.finite x)) (hblank : blank = [] ∨ blank = [' ']) (unit : DeltaUnit) :
    parseSdelta digits (number ++ blank ++ unit.suffix) = timedelta (x * unit.micros) := by
  have hne : number ≠ [] := by
    rintro rfl
    rw [readNumeral_nil] at hread
    exact absurd hread (Option.some_ne_none _).symm
  have hlast : number.getLast? = some (number.getLast hne) := List.getLast?_eq_some_getLast hne
  have hend := hplain _ (List.getLast_mem hne)
  have hu : number.getLast hne ≠ 'u' := fun h => absurd (h ▸ hend) (by decide)
  have hm : number.getLast hne ≠ 'm' := fun h => absurd (h ▸ hend) (by decide)
  unfold parseSdelta
  rw [normalized_written hplain hne hblank, find_unit hlast hu hm, Option.bind_some, take_number,
    readFloat_of_numeral digits fun c hc => numeralChar_plain (hplain c hc), hread, Option.bind_some]
  rfl

/-! ## 4. Zeros at the end -/

theorem plain_toDigits (n : Nat) : Plain (Nat.toDigits 10 n) := fun _ hc =>
  .inl (Nat.isDigit_of_mem_toDigits (by decide) (by decide) hc)

theorem rdropWhile_point {text : Text} (h : ∀ c ∈ text, c.isDigit = true) : text.rdropWhile (· == '.') = text := by
  refine List.rdropWhile_eq_self_iff.mpr fun hne hpoint => ?_
  have hdigit := h _ (List.getLast_mem hne)
  rw [eq_of_beq hpoint] at hdigit
  exact absurd hdigit (by decide)

theorem fraction_digits (decimals n : Nat) :
    ∀ c ∈ List.leftpad decimals '0' (Nat.toDigits 10 n), c.isDigit = true := by
  intro c hc
  unfold List.leftpad at hc
  obtain hzero | hdigit := List.mem_append.mp hc
  · obtain rfl := List.eq_of_mem_replicate hzero
    decide
  · exact Nat.isDigit_of_mem_toDigits (by decide) (by decide) hdigit

/-- A number with a point is read as what it is worth, without the zeros at its end. -/
theorem read_pointText {decimals : Nat} (hdecimals : 0 < decimals) (n : Nat) :
    Plain (strippedText (pointText decimals n)) ∧
      readNumeral (strippedText (pointText decimals n)) = some (.finite ((n : ℚ) / 10 ^ decimals)) := by
  have hwhole : ∀ c ∈ Nat.toDigits 10 (n / 10 ^ decimals), c.isDigit = true := fun c hc =>
    Nat.isDigit_of_mem_toDigits (by decide) (by decide) hc
  have hlength : (List.leftpad decimals '0' (Nat.toDigits 10 (n % 10 ^ decimals))).length = decimals := by
    rw [List.length_leftpad]
    exact max_eq_left ((Nat.length_toDigits_le_iff (by decide) hdecimals).mpr (Nat.mod_lt _ (by positivity)))
  have hvalue := ofDigitChars_without_zeros (List.leftpad decimals '0' (Nat.toDigits 10 (n % 10 ^ decimals)))
  rw [ofDigitChars_leftpad, Nat.ofDigitChars_ten_toDigits, hlength] at hvalue
  have hfraction : ∀ c ∈ (List.leftpad decimals '0' (Nat.toDigits 10 (n % 10 ^ decimals))).rdropWhile (· == '0'),
      c.isDigit = true := fun c hc => fraction_digits decimals _ c ((List.rdropWhile_prefix _ _).subset hc)
  have hsum : (n : ℚ) / 10 ^ decimals = (n / 10 ^ decimals : Nat) + (n % 10 ^ decimals : Nat) / 10 ^ decimals := by
    have hdivision := congrArg (fun m : Nat => (m : ℚ)) (Nat.div_add_mod n (10 ^ decimals))
    push_cast at hdivision
    rw [eq_comm, ← hdivision]
    field_simp
  unfold strippedText pointText
  rw [rdropWhile_append_cons (by decide)]
  generalize (List.leftpad decimals '0' (Nat.toDigits 10 (n % 10 ^ decimals))).rdropWhile (· == '0') = fraction at *
  by_cases hempty : fraction = []
  · obtain rfl := hempty
    have hzero : ((n % 10 ^ decimals : Nat) : ℚ) / 10 ^ decimals = 0 := by
      rw [← hvalue]
      simp
    rw [List.rdropWhile_concat_pos _ _ _ (by decide), rdropWhile_point hwhole, hsum, hzero, add_zero,
      readNumeral_digits hwhole Nat.toDigits_ne_nil, Nat.ofDigitChars_ten_toDigits]
    exact ⟨plain_toDigits _, rfl⟩
  · have hkept : (Nat.toDigits 10 (n / 10 ^ decimals) ++ '.' :: fraction).rdropWhile (· == '.') =
        Nat.toDigits 10 (n / 10 ^ decimals) ++ '.' :: fraction := by
      refine List.rdropWhile_eq_self_iff.mpr fun hne hpoint => ?_
      rw [List.getLast_append_of_ne_nil _ (List.cons_ne_nil _ _), List.getLast_cons hempty] at hpoint
      have hdigit := hfraction _ (List.getLast_mem hempty)
      rw [eq_of_beq hpoint] at hdigit
      exact absurd hdigit (by decide)
    rw [hkept, readNumeral_point hwhole hfraction Nat.toDigits_ne_nil, ofDigitChars_append_div,
      Nat.ofDigitChars_ten_toDigits, hvalue, ← hsum]
    refine ⟨fun c hc => ?_, rfl⟩
    obtain hc | hc := List.mem_append.mp hc
    · exact .inl (hwhole c hc)
    · obtain rfl | hc := List.mem_cons.mp hc
      · exact .inr rfl
      · exact .inl (hfraction c hc)

/-- The zero that `repr` leaves behind the point is stripped again. -/
theorem strippedText_natural (number : ℚ) :
    strippedText (naturalText number) = strippedText (pointText 6 (roundHalfEven (number * 10 ^ 6)).toNat) := by
  unfold strippedText naturalText
  dsimp only
  split
  · rw [List.rdropWhile_concat_pos _ _ _ (by decide), List.rdropWhile_idempotent]
  · rw [List.rdropWhile_idempotent]

theorem toDigits_last (n : Nat) : ∃ front, Nat.toDigits 10 n = front ++ [Nat.digitChar (n % 10)] := by
  by_cases hsmall : n < 10
  · exact ⟨[], by rw [Nat.toDigits_of_lt_base hsmall, Nat.mod_eq_of_lt hsmall]; rfl⟩
  · exact ⟨_, Nat.toDigits_of_base_le (by decide) (Nat.le_of_not_lt hsmall)⟩

theorem digitChar_eq_zero {n : Nat} (h : n < 10) : Nat.digitChar n = '0' ↔ n = 0 := by
  have htable : ∀ m < 10, Nat.digitChar m = '0' ↔ m = 0 := by decide
  exact htable n h

/-- A whole number that does not end in a zero stays as it is. -/
theorem read_whole {n : Nat} (h : ¬ 10 ∣ n) :
    Plain (strippedText (Nat.toDigits 10 n)) ∧ readNumeral (strippedText (Nat.toDigits 10 n)) = some (.finite n) := by
  obtain ⟨front, hfront⟩ := toDigits_last n
  have hlast : ¬ (Nat.digitChar (n % 10) == '0') = true := fun hzero =>
    h (Nat.dvd_of_mod_eq_zero ((digitChar_eq_zero (Nat.mod_lt _ (by decide))).mp (eq_of_beq hzero)))
  have hsame : strippedText (Nat.toDigits 10 n) = Nat.toDigits 10 n := by
    unfold strippedText
    rw [hfront, List.rdropWhile_concat_neg (· == '0') front _ hlast, ← hfront]
    exact rdropWhile_point fun c hc => Nat.isDigit_of_mem_toDigits (by decide) (by decide) hc
  rw [hsame, readNumeral_digits (fun c hc => Nat.isDigit_of_mem_toDigits (by decide) (by decide) hc)
    Nat.toDigits_ne_nil, Nat.ofDigitChars_ten_toDigits]
  exact ⟨plain_toDigits n, rfl⟩

theorem stripped_of_dvd {n : Nat} (h : 10 ∣ n) (hn : 0 < n) :
    strippedText (Nat.toDigits 10 n) = strippedText (Nat.toDigits 10 (n / 10)) := by
  have hlarge : 10 ≤ n := Nat.le_of_dvd hn h
  have hlast : Nat.digitChar (n % 10) = '0' := by rw [Nat.mod_eq_zero_of_dvd h]; rfl
  unfold strippedText
  rw [Nat.toDigits_of_base_le (by decide) hlarge, hlast, List.rdropWhile_concat_pos _ _ _ (by decide)]

/-- What is left of a whole number without its zeros is smaller, or the number. -/
theorem read_stripped (n : Nat) (hn : 0 < n) :
    ∃ m : Nat, 0 < m ∧ m ≤ n ∧ Plain (strippedText (Nat.toDigits 10 n)) ∧
      readNumeral (strippedText (Nat.toDigits 10 n)) = some (.finite m) := by
  induction n using Nat.strongRecOn with
  | ind n ih =>
    by_cases hdvd : 10 ∣ n
    · have hlarge : 10 ≤ n := Nat.le_of_dvd hn hdvd
      obtain ⟨m, hm, hle, hplain, hread⟩ := ih (n / 10) (by omega) (by omega)
      rw [stripped_of_dvd hdvd hn]
      exact ⟨m, hm, hle.trans (Nat.div_le_self n 10), hplain, hread⟩
    · exact ⟨n, hn, le_refl n, read_whole hdvd⟩

/-- One that ends in a zero loses at least that zero. -/
theorem read_whole_of_dvd {n : Nat} (h : 10 ∣ n) (hn : 0 < n) :
    ∃ m : Nat, 0 < m ∧ 10 * m ≤ n ∧ Plain (strippedText (Nat.toDigits 10 n)) ∧
      readNumeral (strippedText (Nat.toDigits 10 n)) = some (.finite m) := by
  have hlarge : 10 ≤ n := Nat.le_of_dvd hn h
  obtain ⟨m, hm, hle, hplain, hread⟩ := read_stripped (n / 10) (by omega)
  rw [stripped_of_dvd h hn]
  exact ⟨m, hm, by omega, hplain, hread⟩

/-! ## 5. The number of a duration -/

/-- The decimals that a microsecond has in the unit, or that are kept. -/
def DeltaUnit.places : DeltaUnit → Nat
  | .us => 0
  | .ms => 3
  | _ => 6

/-- The microseconds of the last of these decimals; beyond a second, what the duration is divided by. -/
def DeltaUnit.factor : DeltaUnit → Nat
  | .m => 60
  | .h => 3600
  | .d => 86400
  | _ => 1

theorem micros_eq (unit : DeltaUnit) : unit.micros = 10 ^ unit.places * unit.factor := by
  cases unit <;> rfl

/-- The microsecond rounding of the unit division, in microseconds of the duration. -/
def DeltaUnit.rounding : DeltaUnit → ℚ
  | .m => 60 / 2
  | .h => 3600 / 2
  | .d => 86400 / 2
  | _ => 0

theorem rounding_nonneg (unit : DeltaUnit) : 0 ≤ unit.rounding := by
  cases unit <;> norm_num [DeltaUnit.rounding]

theorem divided_count (value n : Nat) :
    ∃ count : Nat, dividedSeconds value n = count / 10 ^ 6 ∧ (roundHalfEven ((value : ℚ) / n) : Int) = count := by
  have hpositive : 0 ≤ roundHalfEven ((value : ℚ) / n) := roundHalfEven_nonneg (by positivity)
  obtain ⟨count, hcount⟩ := Int.eq_ofNat_of_zero_le hpositive
  refine ⟨count, ?_, hcount⟩
  unfold dividedSeconds
  rw [hcount, Int.cast_natCast]

theorem divided_near {value n count : Nat} (hn : 0 < n) (hcount : (roundHalfEven ((value : ℚ) / n) : Int) = count) :
    |(count : ℚ) * n - value| ≤ n / 2 := by
  have hnear := abs_roundHalfEven_sub_le ((value : ℚ) / n)
  have hpositive : (0 : ℚ) < n := by exact_mod_cast hn
  have hcast : ((roundHalfEven ((value : ℚ) / n) : Int) : ℚ) = count := by
    exact_mod_cast congrArg (Int.cast : Int → ℚ) hcount
  rw [hcast] at hnear
  have hscaled : (count : ℚ) * n - value = (count - value / n) * n := by
    field_simp
  rw [hscaled, abs_mul, abs_of_pos hpositive]
  calc |(count : ℚ) - value / n| * n ≤ 1 / 2 * n := mul_le_mul_of_nonneg_right hnear hpositive.le
    _ = n / 2 := by ring

/-- The number is a count of the unit's last decimals, and near the duration. -/
theorem numberOf_spec (value : Nat) : ∃ count : Nat, (numberOf value).1 = count / 10 ^ (numberOf value).2.places ∧
      |(count : ℚ) * (numberOf value).2.factor - value| ≤ (numberOf value).2.rounding := by
  have hexact : ∀ unit : DeltaUnit, unit.factor = 1 → unit.rounding = 0 →
      |(value : ℚ) * unit.factor - value| ≤ unit.rounding := by
    intro unit hfactor hrounding
    rw [hfactor, hrounding]
    simp
  have hdivided : ∀ (unit : DeltaUnit) (n : Nat), unit.factor = n → unit.rounding = n / 2 → unit.places = 6 → 0 < n →
      ∃ count : Nat, dividedSeconds value n = count / 10 ^ unit.places ∧
        |(count : ℚ) * unit.factor - value| ≤ unit.rounding := by
    intro unit n hfactor hrounding hplaces hn
    obtain ⟨count, hnumber, hcount⟩ := divided_count value n
    rw [hfactor, hrounding, hplaces]
    exact ⟨count, hnumber, divided_near hn hcount⟩
  unfold numberOf
  split
  · exact ⟨value, by simp [DeltaUnit.places], hexact .us rfl rfl⟩
  · split
    · exact ⟨value, by norm_num [DeltaUnit.places], hexact .ms rfl rfl⟩
    · split
      · exact ⟨value, rfl, hexact .s rfl rfl⟩
      · split
        · exact hdivided .m 60 rfl (by norm_num [DeltaUnit.rounding]) rfl (by decide)
        · split
          · exact hdivided .h (60 * 60) rfl (by norm_num [DeltaUnit.rounding]) rfl (by decide)
          · exact hdivided .d (60 * 60 * 24) rfl (by norm_num [DeltaUnit.rounding]) rfl (by decide)

/-! ## 6. What is shown -/

/-- The number to as many decimals as are asked for. -/
def shown (decimals : Option Nat) (number : ℚ) : ℚ :=
  match decimals with
  | none => number
  | some decimals => roundHalfEven (number * 10 ^ decimals) / 10 ^ decimals

/-- Half a unit in the last place shown, in microseconds. -/
def halfPlace (decimals : Option Nat) (unit : DeltaUnit) : ℚ :=
  match decimals with
  | none => 0
  | some decimals => unit.micros / 10 ^ decimals / 2

/-- How far what is read may be from the duration. -/
def tolerance (decimals : Option Nat) (unit : DeltaUnit) : ℚ := halfPlace decimals unit + unit.rounding

theorem micros_pos (unit : DeltaUnit) : (0 : ℚ) < unit.micros := by
  cases unit <;> norm_num [DeltaUnit.micros]

theorem rounding_small (unit : DeltaUnit) : 2 * unit.rounding < unit.micros := by
  cases unit <;> norm_num [DeltaUnit.rounding, DeltaUnit.micros]

theorem shown_near (decimals : Option Nat) (number : ℚ) (unit : DeltaUnit) :
    |shown decimals number * unit.micros - number * unit.micros| ≤ halfPlace decimals unit := by
  unfold shown halfPlace
  cases decimals with
  | none => simp
  | some decimals =>
    dsimp only
    have hnear := abs_roundHalfEven_sub_le (number * 10 ^ decimals)
    have hplace : (0 : ℚ) < unit.micros / 10 ^ decimals := div_pos (micros_pos unit) (by positivity)
    generalize ((roundHalfEven (number * 10 ^ decimals) : Int) : ℚ) = rounded at *
    have hfactor : rounded / 10 ^ decimals * unit.micros - number * unit.micros =
        (rounded - number * 10 ^ decimals) * (unit.micros / 10 ^ decimals) := by
      field_simp
    rw [hfactor, abs_mul, abs_of_pos hplace]
    calc |rounded - number * 10 ^ decimals| * (unit.micros / 10 ^ decimals)
        ≤ 1 / 2 * (unit.micros / 10 ^ decimals) := mul_le_mul_of_nonneg_right hnear hplace.le
      _ = unit.micros / 10 ^ decimals / 2 := by ring

theorem roundHalfEven_nat (n : Nat) : roundHalfEven (n : ℚ) = n := by
  have hcast := roundHalfEven_intCast (n : Int)
  rwa [Int.cast_natCast] at hcast

/-- A number of the unit's last decimals, with more decimals. -/
theorem scaled_count {count places decimals : Nat} (h : places ≤ decimals) :
    (count : ℚ) / 10 ^ places * 10 ^ decimals = ((count * 10 ^ (decimals - places) : Nat) : ℚ) := by
  obtain ⟨more, rfl⟩ := Nat.exists_eq_add_of_le h
  rw [Nat.add_sub_cancel_left]
  push_cast
  rw [pow_add]
  field_simp

/-- What is shown is a whole number of microseconds. -/
theorem shown_spec (decimals : Option Nat) (unit : DeltaUnit) (count : Nat) :
    ∃ micros : Nat, shown decimals (count / 10 ^ unit.places) * unit.micros = micros := by
  have hexact : (count : ℚ) / 10 ^ unit.places * unit.micros = ((count * unit.factor : Nat) : ℚ) := by
    rw [micros_eq]
    push_cast
    field_simp
  cases decimals with
  | none => exact ⟨_, hexact⟩
  | some decimals =>
    unfold shown
    dsimp only
    by_cases hplaces : unit.places ≤ decimals
    · have hwhole : (roundHalfEven ((count : ℚ) / 10 ^ unit.places * 10 ^ decimals) : ℚ) / 10 ^ decimals =
          count / 10 ^ unit.places := by
        rw [scaled_count hplaces, roundHalfEven_nat, Int.cast_natCast, ← scaled_count hplaces]
        field_simp
      rw [hwhole]
      exact ⟨_, hexact⟩
    · obtain ⟨more, hmore⟩ := Nat.exists_eq_add_of_le (Nat.le_of_not_le hplaces)
      obtain ⟨rounded, hrounded⟩ := Int.eq_ofNat_of_zero_le
        (roundHalfEven_nonneg (q := (count : ℚ) / 10 ^ unit.places * 10 ^ decimals) (by positivity))
      refine ⟨rounded * 10 ^ more * unit.factor, ?_⟩
      rw [hrounded, micros_eq, hmore, pow_add]
      push_cast
      field_simp

theorem read_number {decimals : Option Nat} {unit : DeltaUnit} {number : ℚ} {count : Nat}
    (hnumber : number = count / 10 ^ unit.places) (h : ¬ (decimals = some 0 ∧ (10 : Int) ∣ roundHalfEven number)) :
    Plain (strippedText (numberText decimals number)) ∧
      readNumeral (strippedText (numberText decimals number)) = some (.finite (shown decimals number)) := by
  have hpositive : 0 ≤ number := by
    rw [hnumber]
    positivity
  cases decimals with
  | none =>
    have hplaces : unit.places ≤ 6 := by cases unit <;> decide
    have hmore : number * 10 ^ 6 = ((count * 10 ^ (6 - unit.places) : Nat) : ℚ) := by
      rw [hnumber, scaled_count hplaces]
    have hback : (((count * 10 ^ (6 - unit.places) : Nat) : ℚ)) / 10 ^ 6 = number := by
      rw [← hmore]
      field_simp
    obtain ⟨hplain, hread⟩ := read_pointText (by decide : 0 < 6) (count * 10 ^ (6 - unit.places))
    rw [hback] at hread
    unfold numberText shown
    dsimp only
    rw [strippedText_natural, hmore, roundHalfEven_nat, Int.toNat_natCast]
    exact ⟨hplain, hread⟩
  | some decimals =>
    obtain ⟨rounded, hrounded⟩ := Int.eq_ofNat_of_zero_le
      (roundHalfEven_nonneg (q := number * 10 ^ decimals) (by positivity))
    unfold numberText shown fixedText
    dsimp only
    rw [hrounded, Int.toNat_natCast, Int.cast_natCast]
    by_cases hdecimals : decimals = 0
    · obtain rfl := hdecimals
      rw [pow_zero, mul_one] at hrounded
      have hnot : ¬ 10 ∣ rounded := fun hdvd => h ⟨rfl, by rw [hrounded]; exact_mod_cast hdvd⟩
      rw [if_pos rfl, pow_zero, div_one]
      exact read_whole hnot
    · rw [if_neg hdecimals]
      exact read_pointText (Nat.pos_of_ne_zero hdecimals) rounded

theorem blank_cases (space : Bool) :
    (if space = true then [' '] else ([] : Text)) = [] ∨ (if space = true then [' '] else ([] : Text)) = [' '] := by
  cases space with
  | false => exact .inl rfl
  | true => exact .inr rfl

/-- A unit without a number is refused. -/
theorem parse_bare (digits : DecimalDigits) {blank : Text} (hblank : blank = [] ∨ blank = [' ']) (unit : DeltaUnit) :
    parseSdelta digits ([] ++ blank ++ unit.suffix) = none := by
  obtain rfl | rfl := hblank <;> cases unit <;> rfl

theorem timedelta_nat (n : Nat) : timedelta (n : ℚ) = if (n : Int) < MICROS_LIMIT then some (n : Int) else none := by
  have hlow : 86400000000 - MICROS_LIMIT ≤ (n : Int) :=
    le_trans (by decide : 86400000000 - MICROS_LIMIT ≤ 0) (Int.natCast_nonneg n)
  unfold timedelta
  rw [roundHalfEven_nat]
  simp only [hlow, true_and]

/-- A text that is worth far less than the duration. -/
theorem too_far {value m n U r v : ℚ} (hm : 1 ≤ m) (hn : 10 * m ≤ n) (hr : 2 * r < U) (hr0 : 0 ≤ r)
    (hv : |n * U - v| ≤ U / 2 + r) (hvalue : value = m * U) : ¬ |value - v| ≤ U / 2 + r := by
  intro h
  obtain ⟨hlow, _⟩ := abs_le.mp h
  obtain ⟨_, hhigh⟩ := abs_le.mp hv
  have hU : 0 < U := by linarith
  have hscaled : 10 * m * U ≤ n * U := mul_le_mul_of_nonneg_right hn hU.le
  have hone : U ≤ m * U := le_mul_of_one_le_left hU.le hm
  linarith

theorem shown_near_value {decimals : Option Nat} {number : ℚ} {unit : DeltaUnit} {count value : Nat}
    (hnumber : number = count / 10 ^ unit.places) (hcount : |(count : ℚ) * unit.factor - value| ≤ unit.rounding) :
    |shown decimals number * unit.micros - value| ≤ tolerance decimals unit := by
  have hvalue : number * unit.micros = count * unit.factor := by
    rw [hnumber, micros_eq]
    push_cast
    field_simp
  calc |shown decimals number * unit.micros - value|
      ≤ |shown decimals number * unit.micros - number * unit.micros| + |number * unit.micros - value| :=
        abs_sub_le _ _ _
    _ ≤ halfPlace decimals unit + unit.rounding :=
        add_le_add (shown_near decimals number unit) (by rwa [hvalue])

/-- A whole number that ends in a zero is read as one of a tenth of it at most, or not at all. -/
theorem zeros_lost (digits : DecimalDigits) {value n : Nat} {unit : DeltaUnit} {blank : Text}
    (hblank : blank = [] ∨ blank = [' ']) (hdvd : 10 ∣ n)
    (hnear : |(n : ℚ) * unit.micros - value| ≤ unit.micros / 2 + unit.rounding) :
    ¬ ∃ parsed, parseSdelta digits (strippedText (Nat.toDigits 10 n) ++ blank ++ unit.suffix) = some parsed ∧
      |(parsed : ℚ) - value| ≤ unit.micros / 2 + unit.rounding := by
  obtain rfl | hpos := Nat.eq_zero_or_pos n
  · have hbare : strippedText (Nat.toDigits 10 0) = [] := by decide
    rw [hbare, parse_bare digits hblank]
    exact fun ⟨_, h, _⟩ => absurd h (Option.some_ne_none _).symm
  · obtain ⟨m, hm, hle, hplain, hread⟩ := read_whole_of_dvd hdvd hpos
    rw [parse_written digits hplain hread hblank]
    rintro ⟨parsed, hparsed, hclose⟩
    have hmicros : (m : ℚ) * unit.micros = ((m * unit.micros : Nat) : ℚ) := by push_cast; ring
    rw [hmicros, timedelta_nat] at hparsed
    split at hparsed
    · obtain rfl := Option.some.inj hparsed
      exact too_far (m := m) (n := n) (by exact_mod_cast hm) (by exact_mod_cast hle) (rounding_small unit)
        (rounding_nonneg unit) hnear (by rw [hmicros, Int.cast_natCast]) hclose
    · exact absurd hparsed (Option.some_ne_none _).symm

/-- **What is shown names the duration**, within half a unit in the last place shown and the rounding of the unit
    division, exactly unless the text is a whole number that ends in a zero, or is beyond the largest `timedelta`. -/
theorem parse_sdelta_iff (digits : DecimalDigits) (value : Nat) (decimals : Option Nat) (space : Bool) :
    (∃ parsed, parseSdelta digits (sdelta value decimals space) = some parsed ∧
        |(parsed : ℚ) - value| ≤ tolerance decimals (numberOf value).2) ↔
      ¬ (decimals = some 0 ∧ (10 : Int) ∣ roundHalfEven (numberOf value).1) ∧
        shown decimals (numberOf value).1 * (numberOf value).2.micros < MICROS_LIMIT := by
  obtain ⟨count, hnumber, hcount⟩ := numberOf_spec value
  unfold sdelta
  generalize (numberOf value).2 = unit at *
  generalize (numberOf value).1 = number at *
  have hnear : |shown decimals number * unit.micros - value| ≤ tolerance decimals unit :=
    shown_near_value hnumber hcount
  by_cases hzeros : decimals = some 0 ∧ (10 : Int) ∣ roundHalfEven number
  · -- The zeros that are stripped are digits of the number.
    refine iff_of_false ?_ fun h => h.1 hzeros
    obtain ⟨rfl, hdvd⟩ := hzeros
    have hpositive : 0 ≤ number := by
      rw [hnumber]
      positivity
    obtain ⟨n, hn⟩ := Int.eq_ofNat_of_zero_le (roundHalfEven_nonneg hpositive)
    have htext : numberText (some 0) number = Nat.toDigits 10 n := by
      unfold numberText fixedText
      dsimp only
      rw [pow_zero, mul_one, hn, Int.toNat_natCast, if_pos rfl]
    have hshown : shown (some 0) number = n := by
      unfold shown
      dsimp only
      rw [pow_zero, mul_one, div_one, hn, Int.cast_natCast]
    have hplace : tolerance (some 0) unit = unit.micros / 2 + unit.rounding := by
      unfold tolerance halfPlace
      dsimp only
      rw [pow_zero, div_one]
    rw [hshown, hplace] at hnear
    rw [hn] at hdvd
    rw [htext, hplace]
    exact zeros_lost digits (blank_cases space) (by exact_mod_cast hdvd) hnear
  · obtain ⟨hplain, hread⟩ := read_number hnumber hzeros
    obtain ⟨micros, hmicros⟩ := shown_spec decimals unit count
    rw [← hnumber] at hmicros
    rw [parse_written digits hplain hread (blank_cases space), hmicros, timedelta_nat]
    rw [hmicros] at hnear
    by_cases hsmall : (micros : Int) < MICROS_LIMIT
    · rw [if_pos hsmall]
      refine iff_of_true ⟨micros, rfl, ?_⟩ ⟨hzeros, by exact_mod_cast hsmall⟩
      rwa [Int.cast_natCast]
    · rw [if_neg hsmall]
      refine iff_of_false (fun ⟨_, h, _⟩ => absurd h (Option.some_ne_none _).symm) fun h => hsmall ?_
      exact_mod_cast h.2

/-- The digits of ASCII alone. -/
def asciiDigits : DecimalDigits where
  digit c := if c.isDigit then some (c.toNat - 48) else none
  lt_ten c n h := by
    by_cases hc : c.isDigit = true
    · rw [if_pos hc] at h
      have hrange := Char.isDigit_iff_toNat.mp hc
      have hlast : c.toNat ≤ 57 := hrange.2
      obtain rfl := Option.some.inj h
      omega
    · rw [if_neg hc] at h
      exact absurd h (Option.some_ne_none n).symm
  ascii _ _ := rfl

/-- Ten seconds without decimals come back as one. -/
theorem ten_seconds_shown :
    ¬ ∃ parsed, parseSdelta asciiDigits (sdelta 10000000 (some 0) false) = some parsed ∧
      |(parsed : ℚ) - 10000000| ≤ tolerance (some 0) .s := by
  have hparsed : parseSdelta asciiDigits (sdelta 10000000 (some 0) false) = some 1000000 := by decide +kernel
  rw [hparsed]
  rintro ⟨parsed, hsame, hclose⟩
  obtain rfl := Option.some.inj hsame
  norm_num [tolerance, halfPlace, DeltaUnit.micros, DeltaUnit.rounding] at hclose

end Ceres.Timing
