/-
  File:      Ceres/Config/TimeDelta.lean
  Subject:   THE DURATIONS OF A CONFIGURATION (`rust/ceres-config/src/values.rs`: `TimeDelta`).

  A duration is read from a bare number of seconds, ISO 8601, a clock or a number with a suffix, and is
  written as ISO 8601. Numerals are exact rationals here, and `Duration::from_secs_f64` panics where the
  nearest nanosecond is not below 2^64 seconds.

  * `parse` and its four grammars -- a value, an error, or a panic;
  * `Spells` -- what a text spells, without a word on how it is read;
  * `parse_spells`, `parse_cases` -- a text is read as what it spells, and refused if it spells nothing;
  * `display` -- the text of a duration, which spells it (`display_spells`);
  * **`parse_sound_iff`** -- no panic, and every accepted duration reads back, exactly when what the text
    spells is below 2^64 seconds;
  * `panics_on_large` -- a number of seconds that is too large.
-/
import Mathlib.Data.List.DropRight
import Ceres.Database.Selector
import Ceres.Library.Numeral

namespace Ceres.Config

open Ceres.Library
open Ceres.Database (splitOnce splitOnce_append splitOnce_eq_none splitOnce_eq_some)

/-! ## 1. Reading -/

/-- Why a text is refused. The first two quote it: `invalid duration` and `invalid ISO 8601 duration`; then
    `duration must be positive` and `duration must be a positive number of seconds`. -/
inductive Reason where
  | duration (text : Text)
  | iso8601 (text : Text)
  | positive
  | seconds
deriving DecidableEq

/-- A duration in nanoseconds, an error, or a panic. -/
inductive Parsed where
  | value (nanos : Nat)
  | error (reason : Reason)
  | panicked
deriving DecidableEq

/-- The seconds that a `Duration` can hold are below this. -/
def SECONDS_LIMIT : Nat := 2 ^ 64

/-- The nearest whole number of nanoseconds. -/
def nanosOf (seconds : ℚ) : Int := roundHalfEven (seconds * 10 ^ 9)

/-- `Duration::from_secs_f64`, behind the test for a finite number that is not below zero. -/
def fromSeconds : Numeral → Parsed
  | .finite seconds =>
    if seconds < 0 then .error .seconds
    else if SECONDS_LIMIT * 10 ^ 9 ≤ nanosOf seconds then .panicked
    else .value (nanosOf seconds).toNat
  | _ => .error .seconds

/-- The float times a positive scale. -/
def times (scale : ℚ) : Numeral → Numeral
  | .finite value => .finite (value * scale)
  | other => other

/-- The sum of two floats. -/
def plus : Numeral → Numeral → Numeral
  | .finite a, .finite b => .finite (a + b)
  | .nan, _ => .nan
  | _, .nan => .nan
  | .infinite a, .infinite b => if a = b then .infinite a else .nan
  | .infinite a, _ => .infinite a
  | _, .infinite b => .infinite b

/-- The suffixes with their seconds, in the order they are tried. -/
def SUFFIXES : List (Text × ℚ) :=
  [(['u', 's'], 1 / 10 ^ 6), (['m', 's'], 1 / 10 ^ 3), (['s'], 1), (['m'], 60), (['h'], 3600), (['d'], 86400)]

/-- Without blanks, in lower case. Only a letter of ASCII becomes one that a numeral or a suffix has. -/
def cleaned (text : Text) : Text := (text.filter (· ≠ ' ')).map Char.toLower

def parseSuffixed (text : Text) : Parsed :=
  match SUFFIXES.find? fun suffix => suffix.1.isSuffixOf (cleaned text) with
  | none => .error (.duration text)
  | some (suffix, scale) =>
    let number := (cleaned text).take ((cleaned text).length - suffix.length)
    if number = [] then .error (.duration text)
    else
      match readNumeral number with
      | none => .error (.duration text)
      | some value => fromSeconds (times scale value)

/-- One section of ISO 8601, its units in order; `none` is an error. -/
def parseComponents : List (Char × ℚ) → Text → Numeral → Option Numeral
  | [], remaining, seconds => if remaining = [] then some seconds else none
  | (unit, scale) :: units, remaining, seconds =>
    match splitOnce unit remaining with
    | none => parseComponents units remaining seconds
    | some (value, rest) =>
      (readNumeral value).bind fun value => parseComponents units rest (plus seconds (times scale value))

def DATE_UNITS : List (Char × ℚ) := [('W', 604800), ('D', 86400)]

def TIME_UNITS : List (Char × ℚ) := [('H', 3600), ('M', 60), ('S', 1)]

/-- The sections before and after the `T`, together. -/
def isoSeconds (body : Text) : Option Numeral :=
  let sections := (splitOnce 'T' body).getD (body, [])
  (parseComponents DATE_UNITS sections.1 (.finite 0)).bind (parseComponents TIME_UNITS sections.2)

/-- `text.strip_prefix('P')` -/
def isoBody : Text → Option Text
  | [] => none
  | c :: body => if c = 'P' then some body else none

def parseIso8601 (text : Text) : Parsed :=
  if ['-'].isPrefixOf text then .error .positive
  else
    match (isoBody text).bind isoSeconds with
    | none => .error (.iso8601 text)
    | some seconds => fromSeconds seconds

/-- The three numbers of a clock, in seconds. -/
def clockSeconds (hours minutes seconds : Text) : Option Numeral :=
  (readNumeral (trim hours)).bind fun hours =>
    (readNumeral minutes).bind fun minutes =>
      (readNumeral seconds).map fun seconds => plus (plus (times 3600 hours) (times 60 minutes)) seconds

def parseClock (text : Text) : Parsed :=
  let read :=
    match text.splitOn ':' with
    | [hours, minutes, seconds] => clockSeconds hours minutes seconds
    | [minutes, seconds] => clockSeconds ['0'] minutes seconds
    | _ => none
  match read with
  | none => .error (.duration text)
  | some seconds => fromSeconds seconds

def parse (text : Text) : Parsed :=
  match readNumeral (trim text) with
  | some seconds => fromSeconds seconds
  | none =>
    if ['P'].isPrefixOf (trim text) || ['-', 'P'].isPrefixOf (trim text) then parseIso8601 (trim text)
    else if (trim text).contains ':' then parseClock (trim text)
    else parseSuffixed (trim text)

/-! ## 2. Writing -/

/-- `{microseconds:06}` without the zeros at its end. -/
def fractionText (micros : Nat) : Text :=
  (List.leftpad 6 '0' (Nat.toDigits 10 micros)).rdropWhile (· == '0')

/-- A component that is left out where it is zero. -/
def component (n : Nat) (unit : Char) : Text := if 0 < n then Nat.toDigits 10 n ++ [unit] else []

/-- `fmt`, of a duration in nanoseconds. -/
def display (nanos : Nat) : Text :=
  let total := nanos / 1000
  if total = 0 then ['P', 'T', '0', 'S']
  else
    let days := total / 86400000000
    let hours := total / 3600000000 % 24
    let minutes := total / 60000000 % 60
    let seconds := total / 1000000 % 60
    let micros := total % 1000000
    ['P'] ++ component days 'D' ++
      if 0 < hours ∨ 0 < minutes ∨ 0 < seconds ∨ 0 < micros then
        ['T'] ++ component hours 'H' ++ component minutes 'M' ++
          if 0 < micros then Nat.toDigits 10 seconds ++ ['.'] ++ fractionText micros ++ ['S']
          else component seconds 'S'
      else []

/-! ## 3. What a text spells -/

/-- Numerals, each with one of the units, in the order of these. -/
inductive Section : List (Char × ℚ) → Text → ℚ → Prop where
  | done : Section [] [] 0
  | skip {unit : Char} {scale : ℚ} {units : List (Char × ℚ)} {text : Text} {q : ℚ}
      (rest : Section units text q) : Section ((unit, scale) :: units) text q
  | part {unit : Char} {scale value : ℚ} {units : List (Char × ℚ)} {number text : Text} {q : ℚ}
      (hnumber : readNumeral number = some (.finite value)) (rest : Section units text q) :
      Section ((unit, scale) :: units) (number ++ unit :: text) (value * scale + q)

/-- The seconds that a trimmed text spells. -/
inductive Spells : Text → ℚ → Prop where
  | bare {text : Text} {seconds : ℚ} (h : readNumeral text = some (.finite seconds)) : Spells text seconds
  | date {date : Text} {days : ℚ} (hdate : Section DATE_UNITS date days) : Spells ('P' :: date) days
  | dateTime {date time : Text} {days seconds : ℚ} (hdate : Section DATE_UNITS date days)
      (htime : Section TIME_UNITS time seconds) : Spells ('P' :: (date ++ 'T' :: time)) (days + seconds)
  | clock {hours minutes seconds : Text} {h m s : ℚ} (hhours : readNumeral (trim hours) = some (.finite h))
      (hminutes : readNumeral minutes = some (.finite m)) (hseconds : readNumeral seconds = some (.finite s)) :
      Spells (hours ++ ':' :: (minutes ++ ':' :: seconds)) (h * 3600 + m * 60 + s)
  | shortClock {minutes seconds : Text} {m s : ℚ} (hminutes : readNumeral minutes = some (.finite m))
      (hseconds : readNumeral seconds = some (.finite s)) :
      Spells (minutes ++ ':' :: seconds) (m * 60 + s)
  | suffixed {text number suffix : Text} {scale value : ℚ} (hsuffix : (suffix, scale) ∈ SUFFIXES)
      (htext : cleaned text = number ++ suffix) (hnumber : readNumeral number = some (.finite value)) :
      Spells text (value * scale)

/-! ## 4. A text is read as what it spells -/

variable {text : Text}

theorem not_mem_finite {value : ℚ} (h : readNumeral text = some (.finite value)) {c : Char}
    (hc : numeralChar c = false) : c ∉ text :=
  fun hmem => Bool.false_ne_true (hc.symm.trans (finite_characters h c hmem))

theorem not_mem_numeral {n : Numeral} (h : readNumeral text = some n) {c : Char} (hc : numeralChar c = false)
    (hword : c.toLower ∉ wordChars) : c ∉ text :=
  fun hmem => (numeral_characters h c hmem).elim (fun hfinite => Bool.false_ne_true (hc.symm.trans hfinite)) hword

variable {units : List (Char × ℚ)} {q : ℚ}

theorem section_characters (h : Section units text q) :
    ∀ c ∈ text, numeralChar c = true ∨ c ∈ units.map Prod.fst := by
  induction h with
  | done => exact fun c hc => absurd hc List.not_mem_nil
  | skip rest ih => exact fun c hc => (ih c hc).imp_right (List.mem_cons_of_mem _)
  | part hnumber rest ih =>
    intro c hc
    obtain hc | hc := List.mem_append.mp hc
    · exact .inl (finite_characters hnumber c hc)
    · obtain rfl | hc := List.mem_cons.mp hc
      · exact .inr List.mem_cons_self
      · exact (ih c hc).imp_right (List.mem_cons_of_mem _)

/-- Units that differ and stand in no numeral. -/
structure Apart (units : List (Char × ℚ)) : Prop where
  nodup : (units.map Prod.fst).Nodup
  plain : ∀ unit ∈ units.map Prod.fst, numeralChar unit = false

theorem Apart.tail {unit : Char × ℚ} (h : Apart (unit :: units)) : Apart units :=
  ⟨(List.nodup_cons.mp h.nodup).2, fun other hother => h.plain other (List.mem_cons_of_mem _ hother)⟩

theorem apart_date : Apart DATE_UNITS := ⟨by decide, List.all_iff_forall_prop.mp (by decide)⟩

theorem apart_time : Apart TIME_UNITS := ⟨by decide, List.all_iff_forall_prop.mp (by decide)⟩

theorem parseComponents_section (h : Section units text q) (hunits : Apart units)
    (a : ℚ) : parseComponents units text (.finite a) = some (.finite (a + q)) := by
  induction h generalizing a with
  | done => rw [parseComponents, if_pos rfl, add_zero]
  | @skip unit scale units text q rest ih =>
    have hnot : unit ∉ text := fun hmem => by
      obtain hnumeral | hlater := section_characters rest unit hmem
      · exact Bool.false_ne_true ((hunits.plain unit List.mem_cons_self).symm.trans hnumeral)
      · exact (List.nodup_cons.mp hunits.nodup).1 hlater
    rw [parseComponents, splitOnce_eq_none.mpr hnot]
    exact ih hunits.tail a
  | @part unit scale value units number text q hnumber rest ih =>
    have hnot : unit ∉ number := not_mem_finite hnumber (hunits.plain unit List.mem_cons_self)
    rw [parseComponents, splitOnce_append text hnot]
    dsimp only
    rw [hnumber, Option.bind_some]
    show parseComponents units text (.finite (a + value * scale)) = _
    rw [ih hunits.tail, add_assoc]

/-- A sum is finite only where both its terms are. -/
theorem plus_finite {a b : Numeral} (h : plus a b = .finite q) :
    ∃ x y, a = .finite x ∧ b = .finite y ∧ q = x + y := by
  cases a with
  | finite x =>
    cases b with
    | finite y => exact ⟨x, y, rfl, rfl, (Numeral.finite.inj h).symm⟩
    | infinite negative => exact absurd h (by simp [plus])
    | nan => exact absurd h (by simp [plus])
  | infinite first =>
    cases b with
    | finite y => exact absurd h (by simp [plus])
    | infinite second =>
      unfold plus at h
      by_cases hsame : first = second
      · exact absurd h (by simp [hsame])
      · exact absurd h (by simp [hsame])
    | nan => exact absurd h (by simp [plus])
  | nan => exact absurd h (by simp [plus])

theorem times_finite {scale : ℚ} {n : Numeral} (h : times scale n = .finite q) :
    ∃ x, n = .finite x ∧ q = x * scale := by
  cases n with
  | finite x => exact ⟨x, rfl, (Numeral.finite.inj h).symm⟩
  | infinite negative => exact absurd h (by simp [times])
  | nan => exact absurd h (by simp [times])

theorem section_of_parseComponents : ∀ {units : List (Char × ℚ)} {text : Text} {start n : Numeral},
    parseComponents units text start = some n → ∀ {q : ℚ}, n = .finite q →
      ∃ a b, start = .finite a ∧ Section units text b ∧ q = a + b
  | [], text, start, n, h, q, hn => by
      unfold parseComponents at h
      by_cases hempty : text = []
      · rw [if_pos hempty] at h
        obtain rfl := Option.some.inj h
        exact ⟨q, 0, hn, hempty ▸ .done, (add_zero q).symm⟩
      · rw [if_neg hempty] at h
        exact absurd h (Option.some_ne_none n).symm
  | (unit, scale) :: units, text, start, n, h, q, hn => by
      unfold parseComponents at h
      cases hsplit : splitOnce unit text with
      | none =>
        rw [hsplit] at h
        obtain ⟨a, b, hstart, hsection, hq⟩ := section_of_parseComponents h hn
        exact ⟨a, b, hstart, .skip hsection, hq⟩
      | some parts =>
        obtain ⟨number, rest⟩ := parts
        rw [hsplit] at h
        obtain ⟨value, hvalue, h⟩ := Option.bind_eq_some_iff.mp h
        obtain ⟨a, b, hstart, hsection, hq⟩ := section_of_parseComponents h hn
        obtain ⟨rfl, _⟩ := splitOnce_eq_some hsplit
        obtain ⟨x, y, rfl, hy, ha⟩ := plus_finite hstart
        obtain ⟨z, rfl, hz⟩ := times_finite hy
        exact ⟨x, z * scale + b, rfl, .part hvalue hsection, by rw [hq, ha, hz, add_assoc]⟩

theorem fromSeconds_cases (n : Numeral) : (∃ q, n = .finite q) ∨ fromSeconds n = .error .seconds := by
  cases n with
  | finite q => exact .inl ⟨q, rfl⟩
  | infinite negative => exact .inr rfl
  | nan => exact .inr rfl

theorem parseIso8601_some {body : Text} {n : Numeral} (h : isoSeconds body = some n) :
    parseIso8601 ('P' :: body) = fromSeconds n := by
  have hbody : (isoBody ('P' :: body)).bind isoSeconds = some n := h
  have hminus : ['-'].isPrefixOf ('P' :: body) = false := rfl
  unfold parseIso8601
  rw [hminus, hbody]
  rfl

theorem parseIso8601_none {body : Text} (h : isoSeconds body = none) :
    parseIso8601 ('P' :: body) = .error (.iso8601 ('P' :: body)) := by
  have hbody : (isoBody ('P' :: body)).bind isoSeconds = none := h
  have hminus : ['-'].isPrefixOf ('P' :: body) = false := rfl
  unfold parseIso8601
  rw [hminus, hbody]
  rfl

theorem time_nil : Section TIME_UNITS [] 0 := .skip (.skip (.skip .done))

theorem section_nil {b : ℚ} (h : Section TIME_UNITS [] b) : b = 0 := by
  have hsame := (parseComponents_section h apart_time 0).symm.trans (parseComponents_section time_nil apart_time 0)
  have hsum := Numeral.finite.inj (Option.some.inj hsame)
  rwa [zero_add, zero_add] at hsum

/-- ISO 8601, on a body behind its `P`. -/
theorem parseIso8601_cases (body : Text) :
    (∃ q, Spells ('P' :: body) q ∧ parseIso8601 ('P' :: body) = fromSeconds (.finite q)) ∨
      ∃ reason, parseIso8601 ('P' :: body) = .error reason := by
  cases hread : isoSeconds body with
  | none => exact .inr ⟨_, parseIso8601_none hread⟩
  | some n =>
    rw [parseIso8601_some hread]
    obtain ⟨q, rfl⟩ | herror := fromSeconds_cases n
    · refine .inl ⟨q, ?_, rfl⟩
      obtain ⟨days, hdays, hseconds⟩ := Option.bind_eq_some_iff.mp hread
      obtain ⟨a, b, rfl, htime, hq⟩ := section_of_parseComponents hseconds rfl
      obtain ⟨c, d, hzero, hdate, ha⟩ := section_of_parseComponents hdays rfl
      obtain rfl : 0 = c := Numeral.finite.inj hzero
      rw [zero_add] at ha
      obtain rfl := ha
      cases hsplit : splitOnce 'T' body with
      | none =>
        rw [hsplit, Option.getD_none] at hdate htime
        have hb : b = 0 := section_nil htime
        rw [hq, hb, add_zero]
        exact .date hdate
      | some parts =>
        obtain ⟨date, time⟩ := parts
        rw [hsplit, Option.getD_some] at hdate htime
        obtain ⟨rfl, _⟩ := splitOnce_eq_some hsplit
        rw [hq]
        exact .dateTime hdate htime
    · exact .inr ⟨_, herror⟩

theorem parseIso8601_date {date : Text} {days : ℚ} (h : Section DATE_UNITS date days) :
    parseIso8601 ('P' :: date) = fromSeconds (.finite days) := by
  have hnot : 'T' ∉ date := fun hmem => (section_characters h 'T' hmem).elim (by decide) (by decide)
  have htime : parseComponents TIME_UNITS [] (.finite (0 + days)) = some (.finite (0 + days)) := by
    rw [parseComponents_section time_nil apart_time, add_zero]
  refine parseIso8601_some ?_
  unfold isoSeconds
  dsimp only
  rw [splitOnce_eq_none.mpr hnot, Option.getD_none, parseComponents_section h apart_date, Option.bind_some, htime,
    zero_add]

theorem parseIso8601_dateTime {date time : Text} {days seconds : ℚ} (hdate : Section DATE_UNITS date days)
    (htime : Section TIME_UNITS time seconds) :
    parseIso8601 ('P' :: (date ++ 'T' :: time)) = fromSeconds (.finite (days + seconds)) := by
  have hnot : 'T' ∉ date := fun hmem => (section_characters hdate 'T' hmem).elim (by decide) (by decide)
  refine parseIso8601_some ?_
  unfold isoSeconds
  dsimp only
  rw [splitOnce_append time hnot, Option.getD_some, parseComponents_section hdate apart_date, Option.bind_some,
    parseComponents_section htime apart_time, zero_add]

/-- A clock, of three numbers or of two. -/
theorem parseClock_cases (text : Text) :
    (∃ q, Spells text q ∧ parseClock text = fromSeconds (.finite q)) ∨ ∃ reason, parseClock text = .error reason := by
  have hclock : ∀ {hours minutes seconds : Text} {n : Numeral}, clockSeconds hours minutes seconds = some n →
      ∀ q, n = .finite q → ∃ h m s, readNumeral (trim hours) = some (.finite h) ∧
        readNumeral minutes = some (.finite m) ∧ readNumeral seconds = some (.finite s) ∧
        q = h * 3600 + m * 60 + s := by
    intro hours minutes seconds n hread q hq
    obtain ⟨h, hh, hread⟩ := Option.bind_eq_some_iff.mp hread
    obtain ⟨m, hm, hread⟩ := Option.bind_eq_some_iff.mp hread
    obtain ⟨s, hs, rfl⟩ := Option.map_eq_some_iff.mp hread
    obtain ⟨x, z, hx, rfl, rfl⟩ := plus_finite hq
    obtain ⟨x, y, hx', hy, rfl⟩ := plus_finite hx
    obtain ⟨h, rfl, rfl⟩ := times_finite hx'
    obtain ⟨m, rfl, rfl⟩ := times_finite hy
    exact ⟨h, m, z, hh, hm, hs, rfl⟩
  have hjoin : [':'].intercalate (text.splitOn ':') = text := List.intercalate_splitOn ':'
  unfold parseClock
  dsimp only
  split
  · exact .inr ⟨_, rfl⟩
  · rename_i n hread
    obtain ⟨q, rfl⟩ | herror := fromSeconds_cases n
    · refine .inl ⟨q, ?_, rfl⟩
      split at hread
      · rename_i hours minutes seconds hparts
        obtain ⟨h, m, s, hh, hm, hs, rfl⟩ := hclock hread q rfl
        rw [hparts] at hjoin
        rw [← hjoin]
        simpa [List.intercalate, List.intersperse] using Spells.clock hh hm hs
      · rename_i minutes seconds hparts
        obtain ⟨h, m, s, hh, hm, hs, rfl⟩ := hclock hread q rfl
        rw [hparts] at hjoin
        have hzero : h = 0 := by
          have hread : readNumeral (trim ['0']) = some (.finite 0) := by decide +kernel
          exact Numeral.finite.inj (Option.some.inj (hh.symm.trans hread))
        rw [← hjoin, hzero, zero_mul, zero_add]
        simpa [List.intercalate, List.intersperse] using Spells.shortClock hm hs
      · exact absurd hread (Option.some_ne_none _).symm
    · exact .inr ⟨_, herror⟩

theorem parseClock_three {hours minutes seconds : Text} {h m s : ℚ}
    (hhours : readNumeral (trim hours) = some (.finite h)) (hcolon : ':' ∉ hours)
    (hminutes : readNumeral minutes = some (.finite m)) (hseconds : readNumeral seconds = some (.finite s)) :
    parseClock (hours ++ ':' :: (minutes ++ ':' :: seconds)) = fromSeconds (.finite (h * 3600 + m * 60 + s)) := by
  have hsplit : (hours ++ ':' :: (minutes ++ ':' :: seconds)).splitOn ':' = [hours, minutes, seconds] := by
    rw [List.splitOn_append_cons_self_of_not_mem hcolon,
      List.splitOn_append_cons_self_of_not_mem (not_mem_finite hminutes (by decide)),
      List.splitOn_eq_singleton (not_mem_finite hseconds (by decide))]
  unfold parseClock clockSeconds
  rw [hsplit]
  dsimp only
  rw [hhours, hminutes, hseconds]
  rfl

theorem parseClock_two {minutes seconds : Text} {m s : ℚ} (hminutes : readNumeral minutes = some (.finite m))
    (hseconds : readNumeral seconds = some (.finite s)) :
    parseClock (minutes ++ ':' :: seconds) = fromSeconds (.finite (m * 60 + s)) := by
  have hsplit : (minutes ++ ':' :: seconds).splitOn ':' = [minutes, seconds] := by
    rw [List.splitOn_append_cons_self_of_not_mem (not_mem_finite hminutes (by decide)),
      List.splitOn_eq_singleton (not_mem_finite hseconds (by decide))]
  have hzero : readNumeral (trim ['0']) = some (.finite 0) := by decide +kernel
  unfold parseClock clockSeconds
  rw [hsplit]
  dsimp only
  rw [hzero, hminutes, hseconds]
  show fromSeconds (.finite (0 * 3600 + m * 60 + s)) = _
  rw [zero_mul, zero_add]

/-! ### Suffixes -/

theorem find_suffix {number suffix : Text} {scale value : ℚ} (hsuffix : (suffix, scale) ∈ SUFFIXES)
    (hnumber : readNumeral number = some (.finite value)) :
    SUFFIXES.find? (fun suffix' => suffix'.1.isSuffixOf (number ++ suffix)) = some (suffix, scale) := by
  have hne : number ≠ [] := by
    rintro rfl
    rw [readNumeral_nil] at hnumber
    exact absurd hnumber (Option.some_ne_none _).symm
  obtain ⟨front, last, rfl⟩ : ∃ front last, number = front ++ [last] :=
    ⟨_, _, (List.dropLast_append_getLast hne).symm⟩
  have hlast : numeralChar last = true := finite_characters hnumber last (by simp)
  have hu : ('u' == last) = false := beq_eq_false_iff_ne.mpr fun h => absurd hlast (by rw [← h]; decide)
  have hm : ('m' == last) = false := beq_eq_false_iff_ne.mpr fun h => absurd hlast (by rw [← h]; decide)
  simp only [SUFFIXES, List.mem_cons, Prod.mk.injEq, List.not_mem_nil, or_false] at hsuffix
  obtain ⟨rfl, rfl⟩ | ⟨rfl, rfl⟩ | ⟨rfl, rfl⟩ | ⟨rfl, rfl⟩ | ⟨rfl, rfl⟩ | ⟨rfl, rfl⟩ := hsuffix <;>
    simp [SUFFIXES, List.find?, List.isSuffixOf, List.isPrefixOf, hu, hm]

theorem parseSuffixed_some {text number suffix : Text} {scale value : ℚ} (hsuffix : (suffix, scale) ∈ SUFFIXES)
    (htext : cleaned text = number ++ suffix) (hnumber : readNumeral number = some (.finite value)) :
    parseSuffixed text = fromSeconds (.finite (value * scale)) := by
  have hne : number ≠ [] := by
    rintro rfl
    rw [readNumeral_nil] at hnumber
    exact absurd hnumber (Option.some_ne_none _).symm
  have hlength : (number ++ suffix).length - suffix.length = number.length := by
    rw [List.length_append, Nat.add_sub_cancel]
  unfold parseSuffixed
  rw [htext, find_suffix hsuffix hnumber]
  dsimp only
  rw [hlength, List.take_left, if_neg hne, hnumber]
  rfl

theorem parseSuffixed_reads (text : Text) :
    (∃ suffix scale number value, (suffix, scale) ∈ SUFFIXES ∧ cleaned text = number ++ suffix ∧
        readNumeral number = some (.finite value) ∧ parseSuffixed text = fromSeconds (.finite (value * scale))) ∨
      ∃ reason, parseSuffixed text = .error reason := by
  unfold parseSuffixed
  cases hfind : SUFFIXES.find? (fun suffix => suffix.1.isSuffixOf (cleaned text)) with
  | none => exact .inr ⟨_, rfl⟩
  | some found =>
    obtain ⟨suffix, scale⟩ := found
    dsimp only
    have hmem := List.mem_of_find?_eq_some hfind
    have hfound : suffix.isSuffixOf (cleaned text) = true := by simpa using List.find?_some hfind
    obtain ⟨number, hnumber⟩ := List.isSuffixOf_iff_suffix.mp hfound
    have hlength : (cleaned text).length - suffix.length = number.length := by
      rw [← hnumber, List.length_append, Nat.add_sub_cancel]
    rw [hlength, ← hnumber, List.take_left]
    by_cases hempty : number = []
    · rw [if_pos hempty]
      exact .inr ⟨_, rfl⟩
    · rw [if_neg hempty]
      cases hread : readNumeral number with
      | none => exact .inr ⟨_, rfl⟩
      | some n =>
        dsimp only
        cases n with
        | finite value => exact .inl ⟨suffix, scale, number, value, hmem, rfl, hread, rfl⟩
        | infinite negative => exact .inr ⟨_, rfl⟩
        | nan => exact .inr ⟨_, rfl⟩

theorem parseSuffixed_cases (text : Text) : (∃ q, Spells text q ∧ parseSuffixed text = fromSeconds (.finite q)) ∨
      ∃ reason, parseSuffixed text = .error reason := by
  obtain ⟨suffix, scale, number, value, hmem, htext, hread, hvalue⟩ | herror := parseSuffixed_reads text
  · exact .inl ⟨value * scale, .suffixed hmem htext hread, hvalue⟩
  · exact .inr herror

/-! ### The four grammars together -/

theorem parse_cases (text : Text) :
    (∃ q, Spells (trim text) q ∧ parse text = fromSeconds (.finite q)) ∨ ∃ reason, parse text = .error reason := by
  unfold parse
  cases hread : readNumeral (trim text) with
  | some n =>
    dsimp only
    obtain ⟨q, rfl⟩ | herror := fromSeconds_cases n
    · exact .inl ⟨q, .bare hread, rfl⟩
    · exact .inr ⟨_, herror⟩
  | none =>
    dsimp only
    split
    · rename_i hiso
      cases htrim : trim text with
      | nil => exact .inr ⟨_, rfl⟩
      | cons c body =>
        by_cases hminus : c = '-'
        · obtain rfl := hminus
          exact .inr ⟨.positive, rfl⟩
        · rw [htrim] at hiso
          have hc : c = 'P' := by
            simp only [List.isPrefixOf, Bool.and_true, Bool.or_eq_true, Bool.and_eq_true, beq_iff_eq] at hiso
            exact hiso.elim Eq.symm fun h => absurd h.1.symm hminus
          obtain rfl := hc
          exact parseIso8601_cases body
    · split
      · exact parseClock_cases _
      · exact parseSuffixed_cases _

/-- Where a text is no numeral, its first characters and its colons tell the grammar. -/
theorem parse_dispatch (hread : readNumeral (trim text) = none) : parse text =
      if ['P'].isPrefixOf (trim text) || ['-', 'P'].isPrefixOf (trim text) then parseIso8601 (trim text)
      else if (trim text).contains ':' then parseClock (trim text) else parseSuffixed (trim text) := by
  unfold parse
  rw [hread]

theorem not_read_of_mem {c : Char} (hmem : c ∈ text) (hc : numeralChar c = false)
    (hword : c.toLower ∉ wordChars) : readNumeral text = none := by
  cases hread : readNumeral text with
  | none => rfl
  | some n => exact absurd hmem (not_mem_numeral hread hc hword)

theorem parse_iso {text body : Text} (htrim : trim text = 'P' :: body) : parse text = parseIso8601 (trim text) := by
  have hread : readNumeral (trim text) = none :=
    not_read_of_mem (htrim ▸ List.mem_cons_self) (by decide) (by decide)
  rw [parse_dispatch hread, htrim]
  rfl

theorem numeralChar_toLower {c : Char} (h : numeralChar c = true) : numeralChar c.toLower = true := by
  unfold numeralChar at h
  obtain hdigit | hother := (Bool.or_eq_true _ _).mp h
  · have hlast : c.val ≤ 57 := of_decide_eq_true ((Bool.and_eq_true_iff.mp hdigit).2)
    have hsame : c.toLower = c := by
      unfold Char.toLower
      split
      · rename_i hupper
        have hbetween : (65 : UInt32) ≤ 57 := UInt32.le_trans hupper.1 hlast
        exact absurd hbetween (by decide)
      · rfl
    rw [hsame]
    exact h
  · obtain rfl | rfl | rfl | rfl | rfl : c = '+' ∨ c = '-' ∨ c = '.' ∨ c = 'e' ∨ c = 'E' := by simpa using hother
    all_goals decide

/-- The letters of a suffix, the last of which tells it from a numeral. -/
def suffixChars : List Char := ['u', 's', 'm', 'h', 'd']

theorem suffix_characters {suffix : Text} {scale : ℚ} (h : (suffix, scale) ∈ SUFFIXES) :
    (∀ c ∈ suffix, c ∈ suffixChars) ∧ ∃ c ∈ suffix, numeralChar c = false ∧ c ∉ wordChars := by
  simp only [SUFFIXES, List.mem_cons, Prod.mk.injEq, List.not_mem_nil, or_false] at h
  obtain ⟨rfl, _⟩ | ⟨rfl, _⟩ | ⟨rfl, _⟩ | ⟨rfl, _⟩ | ⟨rfl, _⟩ | ⟨rfl, _⟩ := h
  all_goals
    exact ⟨List.all_iff_forall_prop.mp (by decide), List.any_iff_exists_prop.mp (by decide)⟩

theorem not_iso (h : 'P' ∉ text) : (['P'].isPrefixOf text || ['-', 'P'].isPrefixOf text) = false := by
  rw [Bool.or_eq_false_iff]
  constructor
  · exact Bool.eq_false_iff.mpr fun hprefix => h ((List.isPrefixOf_iff_prefix.mp hprefix).subset (by decide))
  · exact Bool.eq_false_iff.mpr fun hprefix => h ((List.isPrefixOf_iff_prefix.mp hprefix).subset (by decide))

theorem parse_suffixed {text number suffix : Text} {scale value : ℚ} (hsuffix : (suffix, scale) ∈ SUFFIXES)
    (htext : cleaned (trim text) = number ++ suffix) (hnumber : readNumeral number = some (.finite value)) :
    parse text = fromSeconds (.finite (value * scale)) := by
  obtain ⟨hletters, last, hlast, hdigit, hword⟩ := suffix_characters hsuffix
  -- Nothing but blanks, what a finite numeral has, and letters of a suffix.
  have hcharacters : ∀ c ∈ trim text, c = ' ' ∨ numeralChar c.toLower = true ∨ c.toLower ∈ suffixChars := by
    intro c hc
    by_cases hblank : c = ' '
    · exact .inl hblank
    · have hmem : c.toLower ∈ number ++ suffix := by
        rw [← htext]
        exact List.mem_map_of_mem (List.mem_filter.mpr ⟨hc, decide_eq_true hblank⟩)
      obtain hmem | hmem := List.mem_append.mp hmem
      · exact .inr (.inl (finite_characters hnumber _ hmem))
      · exact .inr (.inr (hletters _ hmem))
  have hread : readNumeral (trim text) = none := by
    obtain ⟨c, hc, hlower⟩ := List.mem_map.mp (htext ▸ List.mem_append_right number hlast)
    refine not_read_of_mem (List.mem_filter.mp hc).1 ?_ (hlower ▸ hword)
    by_contra hnumeral
    have hnumeral := numeralChar_toLower (Bool.eq_true_of_not_eq_false hnumeral)
    rw [hlower, hdigit] at hnumeral
    exact Bool.false_ne_true hnumeral
  have hcolon : ':' ∉ trim text := fun hmem => absurd (hcharacters _ hmem) (by decide)
  have hiso : 'P' ∉ trim text := fun hmem => absurd (hcharacters _ hmem) (by decide)
  have hprefix : (['P'].isPrefixOf (trim text) || ['-', 'P'].isPrefixOf (trim text)) = false := not_iso hiso
  have hcontains : (trim text).contains ':' = false :=
    Bool.eq_false_iff.mpr fun h => hcolon (List.contains_iff_mem.mp h)
  rw [parse_dispatch hread, hprefix, hcontains]
  exact parseSuffixed_some hsuffix htext hnumber

theorem parse_colon (hcolon : ':' ∈ trim text) (hiso : 'P' ∉ trim text) :
    parse text = parseClock (trim text) := by
  have hread : readNumeral (trim text) = none := not_read_of_mem hcolon (by decide) (by decide)
  have hprefix : (['P'].isPrefixOf (trim text) || ['-', 'P'].isPrefixOf (trim text)) = false := not_iso hiso
  rw [parse_dispatch hread, hprefix, List.contains_iff_mem.mpr hcolon]
  rfl

theorem not_mem_clock {first rest : Text} {c : Char} (hc : c ≠ ':') (hfirst : c ∉ first) (hrest : c ∉ rest) :
    c ∉ first ++ ':' :: rest := fun hmem =>
  (List.mem_append.mp hmem).elim hfirst fun hmem => (List.mem_cons.mp hmem).elim hc hrest

/-- **A text that spells a number of seconds is read as that number.** -/
theorem parse_spells {text spelled : Text} (h : Spells spelled q) (htrim : trim text = spelled) :
    parse text = fromSeconds (.finite q) := by
  cases h with
  | bare h =>
    unfold parse
    rw [htrim, h]
  | date hdate => rw [parse_iso htrim, htrim, parseIso8601_date hdate]
  | dateTime hdate htime => rw [parse_iso htrim, htrim, parseIso8601_dateTime hdate htime]
  | @clock hours minutes seconds h m s hhours hminutes hseconds =>
    have hplain : ∀ c, isWhitespace c = false → numeralChar c = false → c ∉ hours := fun c hblank hnumeral hmem =>
      (whitespace_or_mem_trim hmem).elim (fun hspace => Bool.false_ne_true (hblank.symm.trans hspace))
        (not_mem_finite hhours hnumeral)
    have hcolon : ':' ∈ trim text := htrim ▸ List.mem_append_right hours List.mem_cons_self
    have hiso : 'P' ∉ trim text := htrim ▸ not_mem_clock (by decide) (hplain 'P' (by decide) (by decide))
      (not_mem_clock (by decide) (not_mem_finite hminutes (by decide)) (not_mem_finite hseconds (by decide)))
    rw [parse_colon hcolon hiso, htrim,
      parseClock_three hhours (hplain ':' (by decide) (by decide)) hminutes hseconds]
  | @shortClock minutes seconds m s hminutes hseconds =>
    have hcolon : ':' ∈ trim text := htrim ▸ List.mem_append_right minutes List.mem_cons_self
    have hiso : 'P' ∉ trim text := htrim ▸ not_mem_clock (by decide) (not_mem_finite hminutes (by decide))
      (not_mem_finite hseconds (by decide))
    rw [parse_colon hcolon hiso, htrim, parseClock_two hminutes hseconds]
  | suffixed hsuffix htext hnumber => exact parse_suffixed hsuffix (htrim ▸ htext) hnumber

/-! ## 5. A duration spells itself -/

theorem toDigits_digit {n : Nat} : ∀ c ∈ Nat.toDigits 10 n, c.isDigit = true := fun _ hc =>
  Nat.isDigit_of_mem_toDigits (by decide) (by decide) hc

theorem readNumeral_toDigits (n : Nat) : readNumeral (Nat.toDigits 10 n) = some (.finite n) := by
  rw [readNumeral_digits toDigits_digit Nat.toDigits_ne_nil, Nat.ofDigitChars_ten_toDigits]

theorem section_component {n : Nat} {unit : Char} {scale q : ℚ} {rest : Text}
    (h : Section units rest q) : Section ((unit, scale) :: units) (component n unit ++ rest) (n * scale + q) := by
  unfold component
  by_cases hn : 0 < n
  · rw [if_pos hn, List.append_assoc, List.singleton_append]
    exact .part (readNumeral_toDigits n) h
  · obtain rfl : n = 0 := Nat.eq_zero_of_not_pos hn
    rw [if_neg hn, List.nil_append, Nat.cast_zero, zero_mul, zero_add]
    exact .skip h

theorem fractionText_digit (micros : Nat) : ∀ c ∈ fractionText micros, c.isDigit = true := by
  intro c hc
  have hpadded : c ∈ List.leftpad 6 '0' (Nat.toDigits 10 micros) := (List.rdropWhile_prefix _ _).subset hc
  unfold List.leftpad at hpadded
  obtain hzero | hdigit := List.mem_append.mp hpadded
  · obtain rfl := List.eq_of_mem_replicate hzero
    decide
  · exact toDigits_digit c hdigit

theorem readNumeral_fraction {micros : Nat} (hmicros : micros < 10 ^ 6) (seconds : Nat) :
    readNumeral (Nat.toDigits 10 seconds ++ ['.'] ++ fractionText micros) =
      some (.finite (seconds + micros / 10 ^ 6)) := by
  have hlength : (List.leftpad 6 '0' (Nat.toDigits 10 micros)).length = 6 := by
    rw [List.length_leftpad]
    exact max_eq_left ((Nat.length_toDigits_le_iff (by decide) (by decide)).mpr hmicros)
  have hvalue : ((Nat.ofDigitChars 10 (fractionText micros) 0 : Nat) : ℚ) / 10 ^ (fractionText micros).length =
      micros / 10 ^ 6 := by
    unfold fractionText
    rw [ofDigitChars_without_zeros, ofDigitChars_leftpad, Nat.ofDigitChars_ten_toDigits, hlength]
  rw [List.append_assoc, List.singleton_append,
    readNumeral_point toDigits_digit (fractionText_digit micros) Nat.toDigits_ne_nil, ofDigitChars_append_div,
    Nat.ofDigitChars_ten_toDigits, hvalue]

/-- The seconds of a duration, with its microseconds as a fraction. -/
def secondsText (seconds micros : Nat) : Text :=
  if 0 < micros then Nat.toDigits 10 seconds ++ ['.'] ++ fractionText micros ++ ['S'] else component seconds 'S'

theorem section_seconds {micros : Nat} (hmicros : micros < 10 ^ 6) (seconds : Nat) :
    Section [('S', 1)] (secondsText seconds micros) (seconds + micros / 10 ^ 6) := by
  unfold secondsText
  by_cases hpositive : 0 < micros
  · rw [if_pos hpositive]
    have hsection : Section [('S', 1)] _ _ := .part (readNumeral_fraction hmicros seconds) .done
    simpa using hsection
  · obtain rfl : micros = 0 := Nat.eq_zero_of_not_pos hpositive
    rw [if_neg hpositive]
    have hsection : Section [('S', 1)] (component seconds 'S' ++ []) _ := section_component .done
    simpa using hsection

/-- The section behind the `T`. -/
theorem section_time {micros : Nat} (hmicros : micros < 10 ^ 6) (hours minutes seconds : Nat) :
    Section TIME_UNITS (component hours 'H' ++ component minutes 'M' ++ secondsText seconds micros)
      (hours * 3600 + (minutes * 60 + (seconds + micros / 10 ^ 6))) := by
  rw [List.append_assoc]
  exact section_component (section_component (section_seconds hmicros seconds))

theorem section_days (days : Nat) : Section DATE_UNITS (component days 'D') (days * 86400) := by
  have hsection : Section [('D', 86400)] (component days 'D' ++ []) _ := section_component .done
  rw [List.append_nil, add_zero] at hsection
  exact .skip hsection

/-- Days, hours, minutes, seconds and microseconds make up the whole. -/
theorem total_eq (total : Nat) : total / 86400000000 * 86400000000 + (total / 3600000000 % 24 * 3600000000 +
      (total / 60000000 % 60 * 60000000 + (total / 1000000 % 60 * 1000000 + total % 1000000))) = total := by
  omega

theorem zero_section : Section TIME_UNITS ['0', 'S'] 0 := by
  have hread : readNumeral ['0'] = some (.finite 0) := by decide +kernel
  have hsection : Section [('S', 1)] ['0', 'S'] (0 * 1 + 0) := .part hread .done
  rw [zero_mul, zero_add] at hsection
  exact .skip (.skip hsection)

/-- What is written is one section behind the `P`, or two with the `T` between them. -/
theorem display_sections (micros : Nat) :
    (∃ date, Section DATE_UNITS date (micros / 10 ^ 6) ∧ display (1000 * micros) = 'P' :: date) ∨
      ∃ date time days seconds, Section DATE_UNITS date days ∧ Section TIME_UNITS time seconds ∧
        (micros : ℚ) / 10 ^ 6 = days + seconds ∧ display (1000 * micros) = 'P' :: (date ++ 'T' :: time) := by
  have htotal : 1000 * micros / 1000 = micros := Nat.mul_div_cancel_left micros (by decide)
  unfold display
  rw [htotal]
  by_cases hzero : micros = 0
  · rw [if_pos hzero, hzero, Nat.cast_zero, zero_div]
    exact .inr ⟨[], _, 0, 0, .skip (.skip .done), zero_section, (add_zero 0).symm, rfl⟩
  · rw [if_neg hzero]
    dsimp only
    have hsum := congrArg (fun n : Nat => (n : ℚ)) (total_eq micros)
    have hmicros : micros % 1000000 < 10 ^ 6 := Nat.mod_lt _ (by decide)
    generalize micros / 86400000000 = days at *
    generalize micros / 3600000000 % 24 = hours at *
    generalize micros / 60000000 % 60 = minutes at *
    generalize micros / 1000000 % 60 = seconds at *
    generalize micros % 1000000 = fraction at *
    push_cast at hsum
    by_cases htime : 0 < hours ∨ 0 < minutes ∨ 0 < seconds ∨ 0 < fraction
    · refine .inr ⟨_, _, _, _, section_days days, section_time hmicros hours minutes seconds, by linarith, ?_⟩
      rw [if_pos htime]
      simp [secondsText]
    · obtain ⟨rfl, rfl, rfl, rfl⟩ : hours = 0 ∧ minutes = 0 ∧ seconds = 0 ∧ fraction = 0 := by omega
      have hvalue : (micros : ℚ) / 10 ^ 6 = days * 86400 := by
        push_cast at hsum
        linarith
      rw [if_neg htime, hvalue, List.append_nil, List.singleton_append]
      exact .inl ⟨_, section_days days, rfl⟩

/-- **The text of a duration of whole microseconds spells that duration.** -/
theorem display_spells (micros : Nat) : Spells (display (1000 * micros)) (micros / 10 ^ 6) := by
  obtain ⟨date, hdate, hdisplay⟩ | ⟨date, time, days, seconds, hdate, htime, hsum, hdisplay⟩ := display_sections micros
  · rw [hdisplay]
    exact .date hdate
  · rw [hdisplay, hsum]
    exact .dateTime hdate htime

theorem section_not_whitespace (h : Section units text q)
    (hunits : ∀ unit ∈ units.map Prod.fst, isWhitespace unit = false) : ∀ c ∈ text, isWhitespace c = false :=
  fun c hc => (section_characters h c hc).elim numeralChar_not_whitespace (hunits c)

theorem units_not_whitespace : (∀ unit ∈ DATE_UNITS.map Prod.fst, isWhitespace unit = false) ∧
    ∀ unit ∈ TIME_UNITS.map Prod.fst, isWhitespace unit = false :=
  ⟨List.all_iff_forall_prop.mp (by decide), List.all_iff_forall_prop.mp (by decide)⟩

/-- What is written for a duration has no whitespace to trim. -/
theorem display_trim (micros : Nat) : trim (display (1000 * micros)) = display (1000 * micros) := by
  refine trim_of_not_whitespace ?_
  obtain ⟨date, hdate, hdisplay⟩ | ⟨date, time, days, seconds, hdate, htime, _, hdisplay⟩ := display_sections micros
  · rw [hdisplay]
    exact List.forall_mem_cons.mpr ⟨by decide, section_not_whitespace hdate units_not_whitespace.1⟩
  · rw [hdisplay]
    refine List.forall_mem_cons.mpr ⟨by decide, List.forall_mem_append.mpr
      ⟨section_not_whitespace hdate units_not_whitespace.1, List.forall_mem_cons.mpr ⟨by decide, ?_⟩⟩⟩
    exact section_not_whitespace htime units_not_whitespace.2

/-! ## 6. Which texts are read without a panic -/

theorem fromSeconds_whole (micros : Nat) : fromSeconds (.finite (micros / 10 ^ 6)) =
      if SECONDS_LIMIT * 10 ^ 9 ≤ 1000 * micros then .panicked else .value (1000 * micros) := by
  have hpositive : ¬ (micros : ℚ) / 10 ^ 6 < 0 := not_lt.mpr (by positivity)
  have hnanos : nanosOf ((micros : ℚ) / 10 ^ 6) = ((1000 * micros : Nat) : Int) := by
    unfold nanosOf
    rw [← roundHalfEven_intCast ((1000 * micros : Nat) : Int)]
    congr 1
    push_cast
    ring
  unfold fromSeconds
  dsimp only
  rw [if_neg hpositive, hnanos, Int.toNat_natCast]
  have hlimit : ((SECONDS_LIMIT : Int) * 10 ^ 9 ≤ ((1000 * micros : Nat) : Int)) ↔
      SECONDS_LIMIT * 10 ^ 9 ≤ 1000 * micros := by
    norm_cast
  simp only [hlimit]

theorem nanosOf_nonpos (h : q < 0) : nanosOf q ≤ 0 := by
  have hscaled : q * 10 ^ 9 < 0 := mul_neg_of_neg_of_pos h (by positivity)
  have hnear := (abs_le.mp (abs_roundHalfEven_sub_le (q * 10 ^ 9))).2
  have hlow : ((nanosOf q : Int) : ℚ) < 1 := by
    unfold nanosOf
    generalize q * 10 ^ 9 = nanos at *
    linarith
  exact Int.lt_add_one_iff.mp (by exact_mod_cast hlow)

theorem fromSeconds_panics : fromSeconds (.finite q) = .panicked ↔ SECONDS_LIMIT * 10 ^ 9 ≤ nanosOf q := by
  unfold fromSeconds
  dsimp only
  by_cases hnegative : q < 0
  · rw [if_pos hnegative]
    have hnonpos := nanosOf_nonpos hnegative
    have hlimit : (0 : Int) < SECONDS_LIMIT * 10 ^ 9 := by decide
    exact ⟨fun h => absurd h (by decide), fun h => absurd (h.trans hnonpos) (not_le.mpr hlimit)⟩
  · rw [if_neg hnegative]
    by_cases hlimit : SECONDS_LIMIT * 10 ^ 9 ≤ nanosOf q
    · rw [if_pos hlimit]
      exact ⟨fun _ => hlimit, fun _ => rfl⟩
    · rw [if_neg hlimit]
      exact ⟨fun h => absurd h (by simp), fun h => absurd h hlimit⟩

theorem fromSeconds_value_iff {nanos : Nat} :
    fromSeconds (.finite q) = .value nanos ↔ 0 ≤ q ∧ nanosOf q = nanos ∧ nanosOf q < SECONDS_LIMIT * 10 ^ 9 := by
  unfold fromSeconds
  dsimp only
  by_cases hnegative : q < 0
  · rw [if_pos hnegative]
    exact iff_of_false (by simp) fun h => absurd h.1 (not_le.mpr hnegative)
  · have hpositive : 0 ≤ nanosOf q := roundHalfEven_nonneg (mul_nonneg (not_lt.mp hnegative) (by positivity))
    rw [if_neg hnegative]
    by_cases hlimit : SECONDS_LIMIT * 10 ^ 9 ≤ nanosOf q
    · rw [if_pos hlimit]
      exact iff_of_false (by simp) fun h => absurd hlimit (not_le.mpr h.2.2)
    · rw [if_neg hlimit, Parsed.value.injEq]
      constructor
      · rintro rfl
        exact ⟨not_lt.mp hnegative, (Int.toNat_of_nonneg hpositive).symm, not_le.mp hlimit⟩
      · rintro ⟨_, heq, _⟩
        rw [heq, Int.toNat_natCast]

theorem fromSeconds_value {nanos : Nat} (h : fromSeconds (.finite q) = .value nanos) :
    nanos < SECONDS_LIMIT * 10 ^ 9 := by
  obtain ⟨_, hnanos, hlimit⟩ := fromSeconds_value_iff.mp h
  rw [hnanos] at hlimit
  exact_mod_cast hlimit

/-- An accepted duration of whole microseconds reads back. -/
theorem parse_display {micros : Nat} (h : parse text = .value (1000 * micros)) :
    parse (display (1000 * micros)) = .value (1000 * micros) := by
  have hbelow : 1000 * micros < SECONDS_LIMIT * 10 ^ 9 := by
    obtain ⟨q, _, hread⟩ | ⟨reason, hread⟩ := parse_cases text
    · exact fromSeconds_value (hread.symm.trans h)
    · exact absurd (hread.symm.trans h) (by simp)
  rw [parse_spells (display_spells micros) (display_trim micros), fromSeconds_whole,
    if_neg (Nat.not_le_of_lt hbelow)]

/-- **A text is read without a panic, and what is accepted reads back, exactly when every number of seconds
    that it spells is below 2^64.** -/
theorem parse_sound_iff (text : Text) :
    (parse text ≠ .panicked ∧
        ∀ micros, parse text = .value (1000 * micros) →
          parse (display (1000 * micros)) = .value (1000 * micros)) ↔
      ∀ seconds, Spells (trim text) seconds → nanosOf seconds < SECONDS_LIMIT * 10 ^ 9 := by
  constructor
  · rintro ⟨hpanic, _⟩ seconds hspells
    rw [parse_spells hspells rfl] at hpanic
    exact not_le.mp fun hlimit => hpanic (fromSeconds_panics.mpr hlimit)
  · intro hbelow
    refine ⟨?_, fun micros => parse_display⟩
    obtain ⟨q, hspells, hread⟩ | ⟨reason, hread⟩ := parse_cases text
    · rw [hread]
      exact fun hpanic => not_le.mpr (hbelow q hspells) (fromSeconds_panics.mp hpanic)
    · rw [hread]
      exact fun hpanic => absurd hpanic (by simp)

/-- 2^64 seconds, as a text without a suffix. -/
theorem panics_on_large : parse "18446744073709551616".toList = .panicked := by
  decide +kernel

end Ceres.Config
