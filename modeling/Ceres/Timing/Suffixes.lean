/-
  File:      Ceres/Timing/Suffixes.lean
  Subject:   ONE SUFFIX GRAMMAR, THREE READERS (`ceres-config/src/values.rs`: `TimeDelta::parse_suffixed`;
             `ceres-database/src/filter.rs`: `parse_duration`; `ceres/timing.py`: `_parse_sdelta`).

  Each reader trims, drops the blanks, lowers and takes the suffix off; two hand the rest to Rust's grammar of
  numerals and one to Python's, which knows underscores, whitespace and the digits of other scripts.

  * `exactFloats`, `filterDuration` -- the filter's reader over exact numerals;
  * `Agree` -- the three accept a text together, and name the same number of microseconds;
  * `Common` -- the number is written as both grammars write it, or is none that Python takes;
  * `config_value_iff`, `filter_some_iff`, `python_some_iff` -- what each reader accepts;
  * **`readers_agree_iff`** -- the readers agree exactly on the texts of common numbers;
  * `underscore_drifts` -- `1_0s`, which Python alone accepts.
-/
import Ceres.Config.TimeDelta
import Ceres.Database.Ranges
import Ceres.Timing.Sdelta

namespace Ceres.Timing

open Ceres.Library
open Ceres.Config (SUFFIXES SECONDS_LIMIT nanosOf fromSeconds_value_iff cleaned parseSuffixed parseSuffixed_reads
  parseSuffixed_some suffix_characters not_read_of_mem)
open Ceres.Database (SpeedateDuration Floats parseDuration durationSuffixes stripDurationSuffix)

/-! ## 1. The readers -/

/-- `value.round() as i64`: half away from zero, and the nearest 64-bit integer. -/
def castMicros (micros : ℚ) : Int :=
  max (-2 ^ 63) (min (if 0 ≤ micros then ⌊micros + 1 / 2⌋ else -⌊-micros + 1 / 2⌋) (2 ^ 63 - 1))

/-- The floats as exact numerals. -/
def exactFloats : Floats Numeral where
  parse := readNumeral
  finite
    | .finite _ => true
    | _ => false
  negative
    | .finite value => decide (value < 0)
    | .infinite negative => negative
    | .nan => false
  micros
    | .finite value, scale => castMicros (value * scale)
    | _, _ => 0

/-- `parse_duration`, with what the ISO grammar reads. -/
def filterDuration (speedate : Text → Option SpeedateDuration) (text : Text) : Option Int :=
  parseDuration speedate (fun text => cleaned (trim text)) exactFloats text

/-- The suffix that Python takes off. -/
def unitOf (text : Text) : Option DeltaUnit := UNITS.find? fun unit => unit.suffix.isSuffixOf (normalized text)

/-- What stands before it. -/
def numberPart (unit : DeltaUnit) (text : Text) : Text :=
  (normalized text).take ((normalized text).length - unit.suffix.length)

/-! ## 2. Agreement -/

/-- The number of microseconds of a value, rounded. -/
def microsOf (unit : DeltaUnit) (value : ℚ) : Int := roundHalfEven (value * unit.micros)

/-- A number of a `timedelta` that is not negative. -/
def InRange (unit : DeltaUnit) (value : ℚ) : Prop := 0 ≤ microsOf unit value ∧ microsOf unit value < MICROS_LIMIT

/-- The three readers accept the text together; what they name below 2^63 microseconds is the decimal value, rounded. -/
def Agree (digits : DecimalDigits) (speedate : Text → Option SpeedateDuration) (unit : DeltaUnit)
    (text : Text) : Prop :=
  ((∃ nanos, parseSuffixed (trim text) = .value nanos) ↔ ∃ micros, filterDuration speedate text = some micros) ∧
    ((∃ micros, filterDuration speedate text = some micros) ↔
      ∃ micros, parseSdelta digits text = some micros ∧ 0 ≤ micros) ∧
    ∀ nanos micros micros', parseSuffixed (trim text) = .value nanos → filterDuration speedate text = some micros →
      parseSdelta digits text = some micros' → micros' < 2 ^ 63 →
        ∃ value, readNumeral (numberPart unit text) = some (.finite value) ∧
          |(nanos : ℚ) / 1000 - value * unit.micros| ≤ 1 / 2 ∧ |(micros : ℚ) - value * unit.micros| ≤ 1 / 2 ∧
          |(micros' : ℚ) - value * unit.micros| ≤ 1 / 2

/-- The text is the characters of a decimal numeral with the suffix, but for blanks, case and whitespace around. -/
def Plainly (unit : DeltaUnit) (text : Text) : Prop :=
  ∃ number, cleaned (trim text) = number ++ unit.suffix ∧ ∀ c ∈ number, numeralChar c = true

/-- A number that Python reads is in range where it is written plainly and not below zero, and only there. -/
def Common (digits : DecimalDigits) (unit : DeltaUnit) (text : Text) : Prop :=
  ∀ value, readFloat digits (numberPart unit text) = some (.finite value) →
    (InRange unit value ↔ Plainly unit text ∧ 0 ≤ value)

/-! ## 3. What Rust reads -/

theorem suffixes_eq : SUFFIXES = UNITS.map fun unit => (unit.suffix, (unit.micros : ℚ) / 10 ^ 6) := by
  simp only [SUFFIXES, UNITS, DeltaUnit.suffix, DeltaUnit.micros, List.map_cons, List.map_nil]
  norm_num

theorem durationSuffixes_eq : durationSuffixes = UNITS.map fun unit => (unit.suffix, unit.micros) := rfl

theorem mem_suffixes {suffix : Text} {scale : ℚ} :
    (suffix, scale) ∈ SUFFIXES ↔ ∃ unit : DeltaUnit, suffix = unit.suffix ∧ scale = unit.micros / 10 ^ 6 := by
  have hall : ∀ unit : DeltaUnit, unit ∈ UNITS := by
    intro unit
    cases unit <;> decide
  rw [suffixes_eq, List.mem_map]
  constructor
  · rintro ⟨unit, _, heq⟩
    exact ⟨unit, (congrArg Prod.fst heq).symm, (congrArg Prod.snd heq).symm⟩
  · rintro ⟨unit, rfl, rfl⟩
    exact ⟨unit, hall unit, rfl⟩

variable {value : ℚ}

theorem find_after_numeral {number : Text} (hread : readNumeral number = some (.finite value))
    (unit : DeltaUnit) :
    UNITS.find? (fun unit' => unit'.suffix.isSuffixOf (number ++ unit.suffix)) = some unit := by
  have hne : number ≠ [] := by
    rintro rfl
    rw [readNumeral_nil] at hread
    exact absurd hread (Option.some_ne_none _).symm
  have hend := finite_characters hread _ (List.getLast_mem hne)
  have hu : number.getLast hne ≠ 'u' := fun h => absurd (h ▸ hend) (by decide)
  have hm : number.getLast hne ≠ 'm' := fun h => absurd (h ▸ hend) (by decide)
  exact find_unit (List.getLast?_eq_some_getLast hne) hu hm unit

/-- The text, trimmed and cleaned, is a numeral below which nothing lies, with the suffix. -/
def Reads (unit : DeltaUnit) (value : ℚ) (text : Text) : Prop :=
  ∃ number, cleaned (trim text) = number ++ unit.suffix ∧ readNumeral number = some (.finite value) ∧ 0 ≤ value

theorem config_value_iff (text : Text) (nanos : Nat) : parseSuffixed (trim text) = .value nanos ↔
      ∃ unit value, Reads unit value text ∧ nanosOf (value * (unit.micros / 10 ^ 6)) = nanos ∧
        nanosOf (value * (unit.micros / 10 ^ 6)) < SECONDS_LIMIT * 10 ^ 9 := by
  constructor
  · intro h
    obtain ⟨suffix, scale, number, value, hmem, htext, hread, hvalue⟩ | ⟨reason, herror⟩ := parseSuffixed_reads (trim text)
    · obtain ⟨unit, rfl, rfl⟩ := mem_suffixes.mp hmem
      obtain ⟨hq, hnanos⟩ := fromSeconds_value_iff.mp (hvalue.symm.trans h)
      have hscale : (0 : ℚ) < unit.micros / 10 ^ 6 := div_pos (micros_pos unit) (by positivity)
      exact ⟨unit, value, ⟨number, htext, hread, nonneg_of_mul_nonneg_left hq hscale⟩, hnanos⟩
    · exact absurd (herror.symm.trans h) (by simp)
  · rintro ⟨unit, value, ⟨number, htext, hread, hpositive⟩, hnanos⟩
    rw [parseSuffixed_some (mem_suffixes.mpr ⟨unit, rfl, rfl⟩) htext hread]
    exact fromSeconds_value_iff.mpr ⟨mul_nonneg hpositive (div_nonneg (micros_pos unit).le (by positivity)), hnanos⟩

/-! ### The filter -/

variable {text : Text}

/-- A letter is left by Rust's trimming if it is by Python's. -/
theorem mem_cleaned_of_normalized {c : Char} (hc : c ∈ normalized text) (hletter : isWhitespace c = false) :
    c ∈ cleaned (trim text) := by
  unfold normalized at hc
  obtain ⟨d, hd, hlower⟩ := List.mem_map.mp hc
  obtain ⟨hd, hblank⟩ := List.mem_filter.mp hd
  have htext : d ∈ text := by
    unfold strip at hd
    exact (List.dropWhile_suffix _).subset ((List.rdropWhile_prefix _ _).subset hd)
  have hspace : isWhitespace d = false := by
    by_contra hwhite
    have hwhite : isWhitespace d = true := Bool.eq_true_of_not_eq_false hwhite
    have hsame : d.toLower = d := by
      unfold Char.toLower
      split
      · rename_i hupper
        have htable : ∀ n < 91, 65 ≤ n → isWhitespace (Char.ofNat n) = false := by decide
        have hnot := htable d.toNat (Nat.lt_succ_of_le (UInt32.le_iff_toNat_le.mp hupper.2))
          (UInt32.le_iff_toNat_le.mp hupper.1)
        rw [Char.ofNat_toNat, hwhite] at hnot
        exact absurd hnot (by decide)
      · rfl
    rw [hsame] at hlower
    rw [hlower, hletter] at hwhite
    exact Bool.false_ne_true hwhite
  have htrim : d ∈ trim text := (whitespace_or_mem_trim htext).resolve_left (by rw [hspace]; exact Bool.false_ne_true)
  exact hlower ▸ List.mem_map_of_mem (List.mem_filter.mpr ⟨htrim, hblank⟩)

variable {unit : DeltaUnit}

theorem letter_of_unit (hunit : unitOf text = some unit) :
    ∃ c ∈ cleaned (trim text), numeralChar c = false ∧ c ∉ wordChars := by
  have hfound : unit.suffix.isSuffixOf (normalized text) = true := by simpa using List.find?_some hunit
  obtain ⟨hletters, c, hc, hletter⟩ := suffix_characters (mem_suffixes.mpr ⟨unit, rfl, rfl⟩)
  have hwhite : ∀ c ∈ Config.suffixChars, isWhitespace c = false := List.all_iff_forall_prop.mp (by decide)
  have hmem : c ∈ normalized text := (List.isSuffixOf_iff_suffix.mp hfound).subset hc
  exact ⟨c, mem_cleaned_of_normalized hmem (hwhite c (hletters c hc)), hletter⟩

/-- The configuration reads such a text by its suffix, unless it looks like ISO 8601 or a clock. -/
theorem parse_eq_parseSuffixed (hunit : unitOf text = some unit)
    (hiso : (['P'].isPrefixOf (trim text) || ['-', 'P'].isPrefixOf (trim text)) = false)
    (hclock : (trim text).contains ':' = false) : Config.parse text = parseSuffixed (trim text) := by
  obtain ⟨c, hc, hdigit, hword⟩ := letter_of_unit hunit
  have hread : readNumeral (trim text) = none := by
    obtain ⟨d, hd, rfl⟩ := List.mem_map.mp hc
    refine not_read_of_mem (List.mem_filter.mp hd).1 ?_ hword
    by_contra hnumeral
    exact Bool.false_ne_true (hdigit.symm.trans (Config.numeralChar_toLower (Bool.eq_true_of_not_eq_false hnumeral)))
  rw [Config.parse_dispatch hread, hiso, hclock]
  rfl

theorem exact_finite {n : Numeral} {scale : Nat} {micros : Int}
    (h : (if !exactFloats.finite n || exactFloats.negative n then none
      else some (exactFloats.micros n scale)) = some micros) :
    ∃ value, n = .finite value ∧ 0 ≤ value ∧ castMicros (value * scale) = micros := by
  cases n with
  | finite value =>
    have hpositive : 0 ≤ value := by
      by_contra hnegative
      have hbelow : exactFloats.negative (.finite value) = true := decide_eq_true (not_le.mp hnegative)
      rw [hbelow, Bool.or_true, if_pos rfl] at h
      exact absurd h (Option.some_ne_none _).symm
    have habove : exactFloats.negative (.finite value) = false := decide_eq_false (not_lt.mpr hpositive)
    have hfinite : exactFloats.finite (.finite value) = true := rfl
    rw [habove, hfinite, Bool.not_true, Bool.or_false, if_neg Bool.false_ne_true] at h
    exact ⟨value, rfl, hpositive, Option.some.inj h⟩
  | infinite negative => exact absurd h (by simp [exactFloats])
  | nan => exact absurd h (by simp [exactFloats])

theorem stripDurationSuffix_none (h : UNITS.find? (fun unit => unit.suffix.isSuffixOf text) = none) :
    stripDurationSuffix text = (text, 1000000) := by
  have hfind : durationSuffixes.find? (fun suffix => suffix.1.isSuffixOf text) = none := by
    rw [durationSuffixes_eq, List.find?_map]
    exact Option.map_eq_none_iff.mpr h
  unfold stripDurationSuffix
  rw [hfind]

theorem stripDurationSuffix_some (h : UNITS.find? (fun unit => unit.suffix.isSuffixOf text) = some unit) :
    stripDurationSuffix text = (text.take (text.length - unit.suffix.length), unit.micros) := by
  have hfind : durationSuffixes.find? (fun suffix => suffix.1.isSuffixOf text) = some (unit.suffix, unit.micros) := by
    rw [durationSuffixes_eq, List.find?_map]
    exact Option.map_eq_some_iff.mpr ⟨unit, h, rfl⟩
  unfold stripDurationSuffix
  rw [hfind]

variable {speedate : Text → Option SpeedateDuration}

theorem filterDuration_eq {text number : Text} {scale : Nat} (hspeedate : speedate text = none)
    (hstrip : stripDurationSuffix (cleaned (trim text)) = (number, scale)) : filterDuration speedate text =
      if number.isEmpty then none else (readNumeral number).bind fun value =>
          if !exactFloats.finite value || exactFloats.negative value then none
          else some (exactFloats.micros value scale) := by
  unfold filterDuration parseDuration
  rw [hspeedate]
  dsimp only
  rw [hstrip]
  rfl

theorem filter_some_iff (hspeedate : speedate text = none) (hunit : unitOf text = some unit) (micros : Int) :
    filterDuration speedate text = some micros ↔
      ∃ unit value, Reads unit value text ∧ castMicros (value * unit.micros) = micros := by
  constructor
  · intro h
    cases hfind : UNITS.find? (fun unit => unit.suffix.isSuffixOf (cleaned (trim text))) with
    | none =>
      -- Without a suffix the text is a bare number, which has no letter of one.
      rw [filterDuration_eq hspeedate (stripDurationSuffix_none hfind)] at h
      by_cases hempty : (cleaned (trim text)).isEmpty = true
      · rw [if_pos hempty] at h
        exact absurd h (Option.some_ne_none _).symm
      · rw [if_neg hempty] at h
        obtain ⟨n, hread, hvalue⟩ := Option.bind_eq_some_iff.mp h
        obtain ⟨value, rfl, _, _⟩ := exact_finite hvalue
        obtain ⟨c, hc, hletter, _⟩ := letter_of_unit hunit
        exact absurd (finite_characters hread c hc) (by rw [hletter]; exact Bool.false_ne_true)
    | some found =>
      rw [filterDuration_eq hspeedate (stripDurationSuffix_some hfind)] at h
      have hfound : found.suffix.isSuffixOf (cleaned (trim text)) = true := by simpa using List.find?_some hfind
      obtain ⟨number, hnumber⟩ := List.isSuffixOf_iff_suffix.mp hfound
      rw [← hnumber, take_number] at h
      by_cases hempty : number.isEmpty = true
      · rw [if_pos hempty] at h
        exact absurd h (Option.some_ne_none _).symm
      · rw [if_neg hempty] at h
        obtain ⟨n, hread, hvalue⟩ := Option.bind_eq_some_iff.mp h
        obtain ⟨value, rfl, hpositive, hmicros⟩ := exact_finite hvalue
        exact ⟨found, value, ⟨number, hnumber.symm, hread, hpositive⟩, hmicros⟩
  · rintro ⟨unit, value, ⟨number, htext, hread, hpositive⟩, rfl⟩
    have hstrip : stripDurationSuffix (cleaned (trim text)) = (number, unit.micros) := by
      rw [htext, stripDurationSuffix_some (find_after_numeral hread unit), take_number]
    have hempty : number.isEmpty = false := by
      cases number with
      | nil =>
        rw [readNumeral_nil] at hread
        exact absurd hread (Option.some_ne_none _).symm
      | cons c number => rfl
    have habove : exactFloats.negative (.finite value) = false := decide_eq_false (not_lt.mpr hpositive)
    have hfinite : exactFloats.finite (.finite value) = true := rfl
    rw [filterDuration_eq hspeedate hstrip, hempty, hread, if_neg Bool.false_ne_true, Option.bind_some, habove, hfinite,
      Bool.not_true, Bool.or_false, if_neg Bool.false_ne_true]
    rfl

/-! ## 4. What Python reads -/

/-- What Python accepts, and does not put below zero. -/
theorem python_some_iff (digits : DecimalDigits) (hunit : unitOf text = some unit) (micros : Int) :
    parseSdelta digits text = some micros ∧ 0 ≤ micros ↔
      ∃ value, readFloat digits (numberPart unit text) = some (.finite value) ∧ InRange unit value ∧
        microsOf unit value = micros := by
  have hparse : parseSdelta digits text = (readFloat digits (numberPart unit text)).bind (fromFloat unit) := by
    have hfind : UNITS.find? (fun unit => unit.suffix.isSuffixOf (normalized text)) = some unit := hunit
    unfold parseSdelta
    rw [hfind]
    rfl
  have hlow : 86400000000 - MICROS_LIMIT ≤ 0 := by decide
  rw [hparse, Option.bind_eq_some_iff]
  constructor
  · rintro ⟨⟨n, hread, hvalue⟩, hpositive⟩
    cases n with
    | finite value =>
      have hvalue : timedelta (value * unit.micros) = some micros := hvalue
      unfold timedelta at hvalue
      split at hvalue
      · rename_i hrange
        obtain rfl := Option.some.inj hvalue
        exact ⟨value, hread, ⟨hpositive, hrange.2⟩, rfl⟩
      · exact absurd hvalue (Option.some_ne_none _).symm
    | infinite negative => exact absurd hvalue (Option.some_ne_none _).symm
    | nan => exact absurd hvalue (Option.some_ne_none _).symm
  · rintro ⟨value, hread, ⟨hpositive, hhigh⟩, rfl⟩
    refine ⟨⟨.finite value, hread, ?_⟩, hpositive⟩
    show timedelta (value * unit.micros) = _
    unfold timedelta
    exact if_pos ⟨hlow.trans hpositive, hhigh⟩

/-! ## 5. Plain texts -/

/-- Python strips no more where no separator of ASCII stands. -/
theorem strip_eq_trim (h : ∀ c ∈ trim text, isSpace c = isWhitespace c) : strip text = trim text := by
  have hspace : ∀ {c : Char}, isWhitespace c = true → isSpace c = true := fun hc => by
    unfold isSpace
    rw [hc, Bool.true_or]
  have hfront : text = text.takeWhile isWhitespace ++ text.dropWhile isWhitespace :=
    List.takeWhile_append_dropWhile.symm
  have hback : text.dropWhile isWhitespace = trim text ++ (text.dropWhile isWhitespace).rtakeWhile isWhitespace :=
    List.rdropWhile_append_rtakeWhile.symm
  have hbefore : ∀ c ∈ text.takeWhile isWhitespace, isSpace c = true := fun c hc => hspace (List.mem_takeWhile_imp hc)
  have hafter : ∀ c ∈ (text.dropWhile isWhitespace).rtakeWhile isWhitespace, isSpace c = true := fun c hc =>
    hspace (List.mem_rtakeWhile_imp hc)
  have hstart : ∀ c ∈ (trim text).head?, isSpace c = false := by
    intro c hc
    have hmem : c ∈ trim text := List.mem_of_mem_head? hc
    have hhead : (text.dropWhile isWhitespace).head? = some c := by
      rw [hback, List.head?_append, hc]
      rfl
    have hnot := List.head?_dropWhile_not isWhitespace text
    rw [hhead] at hnot
    rw [h c hmem]
    simpa using hnot
  have hend : ∀ hne : trim text ≠ [], ¬ isSpace ((trim text).getLast hne) = true := by
    intro hne
    rw [h _ (List.getLast_mem hne)]
    exact List.rdropWhile_last_not isWhitespace _ hne
  have hdrop : text.dropWhile isSpace =
      (trim text ++ (text.dropWhile isWhitespace).rtakeWhile isWhitespace).dropWhile isSpace := by
    conv_lhs => rw [hfront, List.dropWhile_append_of_pos hbefore, hback]
  generalize (text.dropWhile isWhitespace).rtakeWhile isWhitespace = back at *
  unfold strip
  rw [hdrop]
  cases htrim : trim text with
  | nil =>
    rw [List.nil_append, ← List.append_nil back, List.dropWhile_append_of_pos hafter]
    rfl
  | cons c rest =>
    rw [htrim] at hstart hend
    have hc : ¬ isSpace c = true := by
      rw [hstart c rfl]
      exact Bool.false_ne_true
    rw [List.cons_append, List.dropWhile_cons_of_neg hc, ← List.cons_append]
    unfold List.rdropWhile
    rw [List.reverse_append, List.dropWhile_append_of_pos fun d hd => hafter d (List.mem_reverse.mp hd)]
    exact List.rdropWhile_eq_self_iff.mpr hend

theorem separator_apart {c : Char} (h : 0x1c ≤ c.toNat ∧ c.toNat ≤ 0x1f) :
    c ≠ ' ' ∧ c.toLower = c ∧ numeralChar c = false ∧ c ∉ Config.suffixChars := by
  have htable : ∀ n < 32, 28 ≤ n → Char.ofNat n ≠ ' ' ∧ (Char.ofNat n).toLower = Char.ofNat n ∧
      numeralChar (Char.ofNat n) = false ∧ Char.ofNat n ∉ Config.suffixChars := by decide
  have hc := htable c.toNat (Nat.lt_succ_of_le h.2) h.1
  rwa [Char.ofNat_toNat] at hc

theorem normalized_plain {text number : Text} (htext : cleaned (trim text) = number ++ unit.suffix)
    (hplain : ∀ c ∈ number, numeralChar c = true) : normalized text = number ++ unit.suffix := by
  have hletters := (suffix_characters (mem_suffixes.mpr ⟨unit, rfl, rfl⟩)).1
  have hspaces : ∀ c ∈ trim text, isSpace c = isWhitespace c := by
    intro c hc
    have hseparator : (decide (0x1c ≤ c.toNat) && decide (c.toNat ≤ 0x1f)) = false := by
      by_contra hnot
      have hrange := (Bool.and_eq_true_iff.mp (Bool.eq_true_of_not_eq_false hnot)).imp
        of_decide_eq_true of_decide_eq_true
      obtain ⟨hblank, hlower, hdigit, hletter⟩ := separator_apart hrange
      have hmem : c ∈ number ++ unit.suffix := by
        rw [← htext, ← hlower]
        exact List.mem_map_of_mem (List.mem_filter.mpr ⟨hc, decide_eq_true hblank⟩)
      obtain hnumber | hsuffix := List.mem_append.mp hmem
      · exact Bool.false_ne_true (hdigit.symm.trans (hplain c hnumber))
      · exact hletter (hletters c hsuffix)
    unfold isSpace
    rw [hseparator, Bool.or_false]
  unfold normalized
  rw [strip_eq_trim hspaces]
  exact htext

theorem numberPart_plain {text number : Text} (htext : cleaned (trim text) = number ++ unit.suffix)
    (hplain : ∀ c ∈ number, numeralChar c = true) : numberPart unit text = number := by
  unfold numberPart
  rw [normalized_plain htext hplain, take_number]

theorem Reads.plain (digits : DecimalDigits) {unit unit' : DeltaUnit} (h : Reads unit' value text)
    (hunit : unitOf text = some unit) :
    unit = unit' ∧ Plainly unit text ∧ readNumeral (numberPart unit text) = some (.finite value) ∧
      readFloat digits (numberPart unit text) = some (.finite value) ∧ 0 ≤ value := by
  obtain ⟨number, htext, hread, hpositive⟩ := h
  have hplain := finite_characters hread
  have hsame : unit = unit' := by
    unfold unitOf at hunit
    rw [normalized_plain htext hplain, find_after_numeral hread unit'] at hunit
    exact (Option.some.inj hunit).symm
  obtain rfl := hsame
  have hpart := numberPart_plain htext hplain
  rw [hpart]
  exact ⟨rfl, ⟨number, htext, hplain⟩, hread, (readFloat_of_numeral digits hplain).trans hread, hpositive⟩

/-- And the other way round. -/
theorem Plainly.reads {digits : DecimalDigits} (h : Plainly unit text)
    (hread : readFloat digits (numberPart unit text) = some (.finite value)) (hpositive : 0 ≤ value) :
    Reads unit value text := by
  obtain ⟨number, htext, hplain⟩ := h
  rw [numberPart_plain htext hplain, readFloat_of_numeral digits hplain] at hread
  exact ⟨number, htext, hread, hpositive⟩

/-! ## 6. One decimal value -/

/-- A value that a `timedelta` holds is far below what panics. -/
theorem nanosOf_lt (h : InRange unit value) :
    nanosOf (value * (unit.micros / 10 ^ 6)) < SECONDS_LIMIT * 10 ^ 9 := by
  have hmicros := (abs_le.mp (abs_roundHalfEven_sub_le (value * unit.micros))).1
  have hnanos := (abs_le.mp (abs_roundHalfEven_sub_le (value * (unit.micros / 10 ^ 6) * 10 ^ 9))).2
  have hhigh : ((microsOf unit value : Int) : ℚ) < MICROS_LIMIT := by exact_mod_cast h.2
  have hscaled : value * (unit.micros / 10 ^ 6) * 10 ^ 9 = value * unit.micros * 1000 := by ring
  have hlimit : ((MICROS_LIMIT : Int) : ℚ) = 86400000000 * 10 ^ 9 := by norm_num [MICROS_LIMIT]
  have hbound : ((nanosOf (value * (unit.micros / 10 ^ 6)) : Int) : ℚ) < ((SECONDS_LIMIT * 10 ^ 9 : Int) : ℚ) := by
    unfold nanosOf SECONDS_LIMIT
    unfold microsOf at hhigh
    rw [hscaled] at hnanos ⊢
    push_cast
    rw [hlimit] at hhigh
    generalize value * unit.micros = micros at *
    linarith
  exact_mod_cast hbound

theorem nanosOf_near :
    |((nanosOf (value * (unit.micros / 10 ^ 6)) : Int) : ℚ) / 1000 - value * unit.micros| ≤ 1 / 2 := by
  have hnear := abs_le.mp (abs_roundHalfEven_sub_le (value * (unit.micros / 10 ^ 6) * 10 ^ 9))
  have hscaled : value * (unit.micros / 10 ^ 6) * 10 ^ 9 = value * unit.micros * 1000 := by ring
  unfold nanosOf
  rw [hscaled] at hnear ⊢
  generalize value * unit.micros = micros at *
  rw [abs_le]
  constructor <;> linarith [hnear.1, hnear.2]

theorem castMicros_near {micros : ℚ} (hpositive : 0 ≤ micros) (hsmall : roundHalfEven micros < 2 ^ 63) :
    |((castMicros micros : Int) : ℚ) - micros| ≤ 1 / 2 := by
  have hnear := (abs_le.mp (abs_roundHalfEven_sub_le micros)).1
  have hbelow : ((roundHalfEven micros : Int) : ℚ) ≤ 2 ^ 63 - 1 := by exact_mod_cast Int.le_sub_one_of_lt hsmall
  have hlow : (⌊micros + 1 / 2⌋ : ℚ) ≤ micros + 1 / 2 := Int.floor_le _
  have hhigh : micros + 1 / 2 < ⌊micros + 1 / 2⌋ + 1 := Int.lt_floor_add_one _
  have hfloor : 0 ≤ ⌊micros + 1 / 2⌋ := Int.floor_nonneg.mpr (by linarith)
  unfold castMicros
  rw [if_pos hpositive]
  by_cases hfits : ⌊micros + 1 / 2⌋ ≤ 2 ^ 63 - 1
  · rw [min_eq_left hfits, max_eq_right (by omega), abs_le]
    constructor <;> linarith
  · have hlarge : (2 : ℚ) ^ 63 ≤ ⌊micros + 1 / 2⌋ := by exact_mod_cast (by omega : (2 : Int) ^ 63 ≤ ⌊micros + 1 / 2⌋)
    rw [min_eq_right (by omega), max_eq_right (by norm_num), abs_le]
    push_cast
    constructor <;> linarith

/-- The values that the readers name, where all three accept. -/
theorem near_of_accepted {digits : DecimalDigits} (hspeedate : speedate text = none)
    (hunit : unitOf text = some unit) {nanos : Nat} {micros micros' : Int}
    (hconfig : parseSuffixed (trim text) = .value nanos)
    (hfilter : filterDuration speedate text = some micros) (hpython : parseSdelta digits text = some micros')
    (hsmall : micros' < 2 ^ 63) : ∃ value, readNumeral (numberPart unit text) = some (.finite value) ∧
      |(nanos : ℚ) / 1000 - value * unit.micros| ≤ 1 / 2 ∧ |(micros : ℚ) - value * unit.micros| ≤ 1 / 2 ∧
      |(micros' : ℚ) - value * unit.micros| ≤ 1 / 2 := by
  obtain ⟨unit', value, hreads, hnanos, _⟩ := (config_value_iff text nanos).mp hconfig
  obtain ⟨rfl, _, hread, hfloat, hpositive⟩ := hreads.plain digits hunit
  obtain ⟨unit', value', hreads', hmicros⟩ := (filter_some_iff hspeedate hunit micros).mp hfilter
  obtain ⟨rfl, _, hread', _, _⟩ := hreads'.plain digits hunit
  obtain rfl : value = value' := Numeral.finite.inj (Option.some.inj (hread.symm.trans hread'))
  have hparse : timedelta (value * unit.micros) = some micros' := by
    have hfind : UNITS.find? (fun unit => unit.suffix.isSuffixOf (normalized text)) = some unit := hunit
    unfold parseSdelta at hpython
    rw [hfind, Option.bind_some] at hpython
    have hfloat' : readFloat digits ((normalized text).take ((normalized text).length - unit.suffix.length)) =
        some (.finite value) := hfloat
    rwa [hfloat', Option.bind_some] at hpython
  have hrounded : roundHalfEven (value * unit.micros) = micros' := by
    unfold timedelta at hparse
    split at hparse
    · exact Option.some.inj hparse
    · exact absurd hparse (Option.some_ne_none _).symm
  have hscaled : 0 ≤ value * unit.micros := mul_nonneg hpositive (micros_pos unit).le
  refine ⟨value, hread, ?_, ?_, ?_⟩
  · have hcast : ((nanosOf (value * (unit.micros / 10 ^ 6)) : Int) : ℚ) = nanos := by
      exact_mod_cast congrArg (Int.cast : Int → ℚ) hnanos
    rw [← hcast]
    exact nanosOf_near
  · rw [← hmicros]
    exact castMicros_near hscaled (hrounded ▸ hsmall)
  · rw [← hrounded]
    exact abs_roundHalfEven_sub_le _

/-- **The three readers agree on a text with a suffix exactly where its number is common to both grammars**: the
    numbers that Python reads in its range are those written plainly and not below zero. -/
theorem readers_agree_iff (digits : DecimalDigits) (speedate : Text → Option SpeedateDuration)
    (unit : DeltaUnit) (text : Text)
    (hunit : unitOf text = some unit) (hspeedate : speedate text = none) :
    Agree digits speedate unit text ↔ Common digits unit text := by
  have hconfig : (∃ nanos, parseSuffixed (trim text) = .value nanos) →
      ∃ micros, filterDuration speedate text = some micros := by
    rintro ⟨nanos, h⟩
    obtain ⟨unit', value, hreads, _⟩ := (config_value_iff text nanos).mp h
    exact ⟨_, (filter_some_iff hspeedate hunit _).mpr ⟨unit', value, hreads, rfl⟩⟩
  -- What the filter accepts, in the terms of Python's reader.
  have hfilter : (∃ micros, filterDuration speedate text = some micros) ↔
      ∃ value, readFloat digits (numberPart unit text) = some (.finite value) ∧ Plainly unit text ∧ 0 ≤ value := by
    constructor
    · rintro ⟨micros, h⟩
      obtain ⟨unit', value, hreads, _⟩ := (filter_some_iff hspeedate hunit micros).mp h
      obtain ⟨_, hplain, _, hfloat, hpositive⟩ := hreads.plain digits hunit
      exact ⟨value, hfloat, hplain, hpositive⟩
    · rintro ⟨value, hfloat, hplain, hpositive⟩
      exact ⟨_, (filter_some_iff hspeedate hunit _).mpr ⟨unit, value, hplain.reads hfloat hpositive, rfl⟩⟩
  have hpython : (∃ micros, parseSdelta digits text = some micros ∧ 0 ≤ micros) ↔
      ∃ value, readFloat digits (numberPart unit text) = some (.finite value) ∧ InRange unit value := by
    constructor
    · rintro ⟨micros, h⟩
      obtain ⟨value, hfloat, hrange, _⟩ := (python_some_iff digits hunit micros).mp h
      exact ⟨value, hfloat, hrange⟩
    · rintro ⟨value, hfloat, hrange⟩
      exact ⟨_, (python_some_iff digits hunit _).mpr ⟨value, hfloat, hrange, rfl⟩⟩
  constructor
  · rintro ⟨_, hsame, _⟩ value hfloat
    have hunique : ∀ other, readFloat digits (numberPart unit text) = some (.finite other) → other = value :=
      fun other hother => Numeral.finite.inj (Option.some.inj (hother.symm.trans hfloat))
    constructor
    · intro hrange
      obtain ⟨other, hother, hplain, hpositive⟩ := hfilter.mp (hsame.mpr (hpython.mpr ⟨value, hfloat, hrange⟩))
      exact ⟨hplain, hunique other hother ▸ hpositive⟩
    · intro hplain
      obtain ⟨other, hother, hrange⟩ := hpython.mp (hsame.mp (hfilter.mpr ⟨value, hfloat, hplain⟩))
      exact hunique other hother ▸ hrange
  · intro hcommon
    refine ⟨⟨hconfig, fun h => ?_⟩, ?_, fun nanos micros micros' h₁ h₂ h₃ hsmall =>
      near_of_accepted hspeedate hunit h₁ h₂ h₃ hsmall⟩
    · obtain ⟨value, hfloat, hplain, hpositive⟩ := hfilter.mp h
      have hrange := (hcommon value hfloat).mpr ⟨hplain, hpositive⟩
      have hnonneg : 0 ≤ nanosOf (value * (unit.micros / 10 ^ 6)) :=
        roundHalfEven_nonneg
          (mul_nonneg (mul_nonneg hpositive (div_nonneg (micros_pos unit).le (by positivity))) (by positivity))
      exact ⟨_, (config_value_iff text _).mpr
        ⟨unit, value, hplain.reads hfloat hpositive, (Int.toNat_of_nonneg hnonneg).symm, nanosOf_lt hrange⟩⟩
    · rw [hfilter, hpython]
      exact exists_congr fun value => and_congr_right fun hfloat => (hcommon value hfloat).symm

/-- A text where they agree. -/
theorem hours_agree : Agree asciiDigits (fun _ => none) .h " 1.5e1 H".toList :=
  (readers_agree_iff asciiDigits (fun _ => none) .h " 1.5e1 H".toList (by decide) rfl).mpr fun value hvalue => by
    have hread : readFloat asciiDigits (numberPart .h " 1.5e1 H".toList) = some (.finite 15) := by decide +kernel
    obtain rfl := Numeral.finite.inj (Option.some.inj (hread.symm.trans hvalue))
    have hrange : InRange .h 15 := by unfold InRange; decide +kernel
    have hplain : ∀ c ∈ "1.5e1".toList, numeralChar c = true := List.all_iff_forall_prop.mp (by decide)
    exact iff_of_true hrange ⟨⟨"1.5e1".toList, by decide, hplain⟩, by norm_num⟩

/-- `1_0s`: ten seconds to Python, and nothing to Rust. -/
theorem underscore_drifts : ¬ Agree asciiDigits (fun _ => none) .s "1_0s".toList := by
  have hpython : parseSdelta asciiDigits "1_0s".toList = some 10000000 := by decide +kernel
  have hfilter : filterDuration (fun _ => none) "1_0s".toList = none := by decide
  rintro ⟨_, hsame, _⟩
  obtain ⟨micros, hmicros⟩ := hsame.mpr ⟨10000000, hpython, by decide⟩
  exact absurd (hmicros.symm.trans hfilter) (Option.some_ne_none micros)

end Ceres.Timing
