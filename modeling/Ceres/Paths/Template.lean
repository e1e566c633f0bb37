/-
  File:      Ceres/Paths/Template.lean
  Subject:   PATH TEMPLATES (`paths.py`: `_SYMBOLS`, `PathTemplate`, `_check_clock`, `_check_segment`).

  A template is a list of literals and atoms. An atom stands for a part of the time, for the Unix time or
  for a name; rendering puts the texts together and checks the segments of the path.

  * `Symbol`, `Symbol.render` -- the date symbols, and what each writes for a time in its zone;
  * `PathTemplate` -- the parts together with what the constructor checks of them;
  * `render` -- a path or the first error; `render_ok` -- a path is the parts' texts, one after the other;
  * `Symbol.Variable`, `length_render` -- every other symbol writes the same number of characters at any
    time; `months_prefix`, `weekdays_prefix` -- or names of which none begins another.
-/
import Ceres.Library.Month
import Ceres.Database.Timestamp

namespace Ceres.Paths

open Ceres.Library Ceres.Database

/-! ## 1. Symbols -/

/-- A time in a zone: microseconds since the epoch, and the zone's seconds east of UTC. -/
structure Moment where
  instant : Int
  offset : Int

/-- What the clocks of the zone show, as an instant of theirs. -/
def Moment.clock (when : Moment) : Int := when.instant + when.offset * 1000000

def utc (instant : Int) : Moment := ⟨instant, 0⟩

def MONTHS : List Text :=
  ["January".toList, "February".toList, "March".toList, "April".toList, "May".toList, "June".toList,
    "July".toList, "August".toList, "September".toList, "October".toList, "November".toList,
    "December".toList]

def WEEKDAYS : List Text :=
  ["Monday".toList, "Tuesday".toList, "Wednesday".toList, "Thursday".toList, "Friday".toList,
    "Saturday".toList, "Sunday".toList]

/-- `_SYMBOLS`; `S` by the digits it writes. -/
inductive Symbol where
  | yyyy | yy | MM | M | MMM | MMMM | dd | d | DDD | HH | H | hh | h | a | mm | ss
  | S (width : Fin 6)
  | EEE | EEEE | Z | XX
  deriving DecidableEq

/-- `str` of a number. -/
def numeralOf (n : Nat) : Text := Nat.toDigits 10 n

def signedText (n : Int) : Text :=
  if n < 0 then '-' :: numeralOf n.natAbs else numeralOf n.natAbs

def hour12 (hour : Nat) : Nat := (hour + 11) % 12 + 1

/-- `timetuple().tm_yday`. -/
def dayOfYear (clock : Int) : Nat := (dateOf clock).ordinal.toNat

/-- `weekday()`, 0 on Mondays. -/
def weekday (clock : Int) : Nat := ((clock / DAY + 3) % 7).toNat

/-- `_offset`. -/
def offsetText (offset : Int) : Text :=
  let minutes := offset / 60
  (if minutes < 0 then '-' else '+') :: fixed 2 (minutes.natAbs / 60) ++ fixed 2 (minutes.natAbs % 60)

/-- `datetime` has the years 1 to 9999. -/
def Symbol.render (when : Moment) : Symbol → Text
  | yyyy => fixed 4 (dateOf when.clock).year.toNat
  | yy => fixed 2 ((dateOf when.clock).year.toNat % 100)
  | MM => fixed 2 (dateOf when.clock).month
  | M => numeralOf (dateOf when.clock).month
  | MMM => (MONTHS.getD ((dateOf when.clock).month - 1) []).take 3
  | MMMM => MONTHS.getD ((dateOf when.clock).month - 1) []
  | dd => fixed 2 (dateOf when.clock).day
  | d => numeralOf (dateOf when.clock).day
  | DDD => fixed 3 (dayOfYear when.clock)
  | HH => fixed 2 (hourOf when.clock)
  | H => numeralOf (hourOf when.clock)
  | hh => fixed 2 (hour12 (hourOf when.clock))
  | h => numeralOf (hour12 (hourOf when.clock))
  | a => if hourOf when.clock < 12 then ['A', 'M'] else ['P', 'M']
  | mm => fixed 2 (minuteOf when.clock)
  | ss => fixed 2 (secondOf when.clock)
  | S width => (fixed 6 (microOf when.clock)).take (width + 1)
  | EEE => (WEEKDAYS.getD (weekday when.clock) []).take 3
  | EEEE => WEEKDAYS.getD (weekday when.clock) []
  | Z => offsetText when.offset
  | XX => if when.offset = 0 then ['Z'] else offsetText when.offset

/-- The units of `{epoch}`, `{epoch:ms}` and `{epoch:us}`. -/
inductive EpochUnit where
  | s | ms | us
  deriving DecidableEq

def EpochUnit.perSecond : EpochUnit → Nat
  | s => 1
  | ms => 1000
  | us => 1000000

/-- `_epoch`. -/
def EpochUnit.render (when : Moment) (unit : EpochUnit) : Text :=
  signedText (when.instant / 1000000 * unit.perSecond +
    (when.instant % 1000000) * unit.perSecond / 1000000)

inductive Atom where
  | symbol (symbol : Symbol)
  | epoch (unit : EpochUnit)
  | name (name : String)
  deriving DecidableEq

inductive Part where
  | literal (text : Text)
  | atom (atom : Atom)
  deriving DecidableEq

/-- The value of each name; `{host}` has one always. -/
abbrev Values : Type := String → Option Text

/-! ## 2. Rendering -/

inductive PathError where
  /-- An atom has no value. -/
  | noValue (atom : Atom)
  /-- An atom renders a text that holds a separator. -/
  | separator (atom : Atom) (text : Text)
  /-- An empty, `.` or `..` segment. -/
  | dots
  /-- A segment holds a reserved character. -/
  | character (segment : Text)
  /-- A segment is a name Windows reserves. -/
  | reserved (segment : Text)
  deriving DecidableEq

def FORBIDDEN : List Char := ['<', '>', ':', '"', '|', '?', '*', '\\']

/-- The devices of `_RESERVED`. -/
def RESERVED : List Text :=
  ["CON".toList, "PRN".toList, "AUX".toList, "NUL".toList] ++
    ["COM".toList, "LPT".toList].flatMap fun device => (List.range' 1 9).map fun i => device ++ numeralOf i

/-- `_check_segment`. -/
def checkSegment (segment : Text) : Except PathError Unit :=
  if segment = [] ∨ segment = ['.'] ∨ segment = ['.', '.'] then .error .dots
  else if segment.any fun c => decide (c ∈ FORBIDDEN ∨ c.toNat < 32) then .error (.character segment)
  else if RESERVED.contains ((segment.takeWhile fun c => decide (c ≠ '.')).map Char.toUpper) ∨
      segment.getLast? = some '.' ∨ segment.getLast? = some ' ' then .error (.reserved segment)
  else .ok ()

/-- What an atom writes, without a value nothing. -/
def Atom.text (when : Moment) (values : Values) : Atom → Option Text
  | symbol s => some (s.render when)
  | epoch unit => some (unit.render when)
  | name n => values n

def Atom.render (when : Moment) (values : Values) (atom : Atom) : Except PathError Text :=
  match atom.text when values with
  | none => .error (.noValue atom)
  | some text => if '/' ∈ text ∨ '\\' ∈ text then .error (.separator atom text) else .ok text

def Part.render (when : Moment) (values : Values) : Part → Except PathError Text
  | literal text => .ok text
  | atom a => a.render when values

def renderPieces (when : Moment) (values : Values) : List Part → Except PathError Text
  | [] => .ok []
  | part :: rest => do
    let text ← part.render when values
    let path ← renderPieces when values rest
    return text ++ path

def checkSegments : List Text → Except PathError Unit
  | [] => .ok ()
  | segment :: rest => do
    checkSegment segment
    checkSegments rest

/-- `PathTemplate.render`, for the parts of a template. -/
def renderParts (when : Moment) (values : Values) (parts : List Part) : Except PathError Text := do
  let path ← renderPieces when values parts
  checkSegments (path.splitOn '/')
  return path

/-! ## 3. Templates -/

def HOURS : List Symbol := [.HH, .H, .hh, .h]

/-- `_check_clock`: a 12-hour clock has its `{a}`, a minute an hour and a second a minute. -/
def checkClock (parts : List Part) : Bool :=
  let has := fun s => decide (Part.atom (.symbol s) ∈ parts)
  (!(has .hh || has .h) || has .a) && (!has .mm || HOURS.any has) && (!has .ss || has .mm)

/-- `_PROBE`, 2001-02-03T04:05:06. -/
def PROBE : Moment := utc ((daysOf ⟨2001, 2, 3⟩ * 86400 + 14706) * 1000000)

/-- A template as its constructor accepts it. -/
structure PathTemplate where
  parts : List Part
  /-- It is no absolute path. -/
  relative : ∀ text rest, parts = .literal text :: rest → text.head? ≠ some '/' ∧ text.head? ≠ some '\\'
  clock : checkClock parts = true
  probe : (renderParts PROBE (fun _ => some ['x']) parts).isOk = true

def PathTemplate.render (template : PathTemplate) (when : Moment) (values : Values) : Except PathError Text :=
  renderParts when values template.parts

/-- What a part writes, checks aside. -/
def Part.text (when : Moment) (values : Values) : Part → Text
  | literal text => text
  | atom a => (a.text when values).getD []

def textOf (when : Moment) (values : Values) (parts : List Part) : Text :=
  (parts.map (Part.text when values)).flatten

theorem textOf_cons (when : Moment) (values : Values) (part : Part) (rest : List Part) :
    textOf when values (part :: rest) = part.text when values ++ textOf when values rest := rfl

theorem textOf_append (when : Moment) (values : Values) (parts rest : List Part) :
    textOf when values (parts ++ rest) = textOf when values parts ++ textOf when values rest := by
  simp [textOf]

variable {values : Values}

theorem Part.render_ok {when : Moment} {part : Part} {text : Text}
    (h : part.render when values = .ok text) : text = part.text when values := by
  cases part with
  | literal t => exact (Except.ok.inj h).symm
  | atom a =>
    have h : a.render when values = .ok text := h
    unfold Atom.render at h
    rw [Part.text]
    cases htext : a.text when values with
    | none =>
      rw [htext] at h
      cases h
    | some t =>
      rw [htext] at h
      dsimp only at h
      split at h
      · cases h
      · exact (Except.ok.inj h).symm

theorem renderPieces_ok {when : Moment} : ∀ {parts : List Part} {path : Text},
    renderPieces when values parts = .ok path → path = textOf when values parts
  | [], path, h => (Except.ok.inj h).symm
  | part :: rest, path, h => by
    unfold renderPieces at h
    cases hpart : part.render when values with
    | error e =>
      rw [hpart] at h
      cases h
    | ok text =>
      cases hrest : renderPieces when values rest with
      | error e =>
        rw [hpart, hrest] at h
        cases h
      | ok others =>
        rw [hpart, hrest] at h
        obtain rfl := Except.ok.inj h
        rw [textOf_cons, Part.render_ok hpart, renderPieces_ok hrest]

theorem renderPieces_of {when : Moment} : ∀ {parts : List Part},
    (∀ a, Part.atom a ∈ parts → ∃ text, a.text when values = some text ∧ '/' ∉ text ∧ '\\' ∉ text) →
      renderPieces when values parts = .ok (textOf when values parts)
  | [], _ => rfl
  | part :: rest, h => by
    have hrest := renderPieces_of fun a ha => h a (List.mem_cons_of_mem _ ha)
    have hpart : part.render when values = .ok (part.text when values) := by
      cases part with
      | literal text => rfl
      | atom a =>
        obtain ⟨text, htext, hslash, hback⟩ := h a List.mem_cons_self
        show a.render when values = .ok ((a.text when values).getD [])
        unfold Atom.render
        rw [htext]
        exact if_neg (not_or.mpr ⟨hslash, hback⟩)
    unfold renderPieces
    rw [hpart, hrest]
    rfl

theorem atoms_of_pieces {when : Moment} : ∀ {parts : List Part} {path : Text},
    renderPieces when values parts = .ok path →
      ∀ a, Part.atom a ∈ parts → ∃ text, a.text when values = some text ∧ '/' ∉ text ∧ '\\' ∉ text
  | [], _, _, a, ha => by cases ha
  | part :: rest, path, h, a, ha => by
    unfold renderPieces at h
    cases hpart : part.render when values with
    | error e =>
      rw [hpart] at h
      cases h
    | ok text =>
      cases hrest : renderPieces when values rest with
      | error e =>
        rw [hpart, hrest] at h
        cases h
      | ok others =>
        rcases List.mem_cons.mp ha with rfl | ha
        · have hpart : a.render when values = .ok text := hpart
          unfold Atom.render at hpart
          cases htext : a.text when values with
          | none =>
            rw [htext] at hpart
            cases hpart
          | some own =>
            rw [htext] at hpart
            dsimp only at hpart
            split at hpart
            · cases hpart
            · rename_i hplain
              obtain ⟨hslash, hback⟩ := not_or.mp hplain
              exact ⟨own, rfl, hslash, hback⟩
        · exact atoms_of_pieces hrest a ha

theorem renderParts_ok {when : Moment} {parts : List Part} {path : Text}
    (h : renderParts when values parts = .ok path) :
    renderPieces when values parts = .ok path ∧ checkSegments (path.splitOn '/') = .ok () := by
  unfold renderParts at h
  cases hpieces : renderPieces when values parts with
  | error e =>
    rw [hpieces] at h
    cases h
  | ok text =>
    rw [hpieces] at h
    cases hsegments : checkSegments (text.splitOn '/') with
    | error e =>
      dsimp only [bind, Except.bind] at h
      rw [hsegments] at h
      cases h
    | ok _ =>
      dsimp only [bind, Except.bind] at h
      rw [hsegments] at h
      obtain rfl := Except.ok.inj h
      exact ⟨rfl, hsegments⟩

/-- **A rendered path** is the texts of its parts, one after the other. -/
theorem render_ok {when : Moment} {parts : List Part} {path : Text}
    (h : renderParts when values parts = .ok path) : path = textOf when values parts :=
  renderPieces_ok (renderParts_ok h).1

/-! ## 4. Texts that end by themselves -/

/-- Whatever follows them, two different ones do not make one text. -/
def Settles (a b : Text) : Prop := ∀ c d : Text, a ++ c = b ++ d → a = b

theorem settles_of_length {a b : Text} (h : a.length = b.length) : Settles a b :=
  fun _ _ heq => (List.append_inj heq h).1

theorem settles_of_prefix {names : List Text} (hnames : ∀ a ∈ names, ∀ b ∈ names, a <+: b → a = b)
    {a b : Text} (ha : a ∈ names) (hb : b ∈ names) : Settles a b := by
  intro c d heq
  have hleft : a <+: a ++ c := List.prefix_append a c
  rcases List.prefix_or_prefix_of_prefix hleft (heq ▸ List.prefix_append b d) with hab | hba
  · exact hnames a ha b hb hab
  · exact (hnames b hb a ha hba).symm

theorem months_prefix : ∀ a ∈ MONTHS, ∀ b ∈ MONTHS, a <+: b → a = b := by decide

theorem weekdays_prefix : ∀ a ∈ WEEKDAYS, ∀ b ∈ WEEKDAYS, a <+: b → a = b := by decide

/-- The symbols that write a number without leading zeros. -/
def Symbol.Variable : Symbol → Bool
  | M | d | H | h => true
  | _ => false

theorem getD_mem_months : ∀ i < 12, MONTHS.getD i [] ∈ MONTHS := by decide

theorem getD_mem_weekdays : ∀ i < 7, WEEKDAYS.getD i [] ∈ WEEKDAYS := by decide

theorem month_mem (clock : Int) : MONTHS.getD ((dateOf clock).month - 1) [] ∈ MONTHS := by
  have hrange := (civil_range (clock / DAY)).1
  refine getD_mem_months _ ?_
  show (civil (clock / DAY)).month - 1 < 12
  omega

theorem weekday_mem (clock : Int) : WEEKDAYS.getD (weekday clock) [] ∈ WEEKDAYS := by
  refine getD_mem_weekdays _ ?_
  show ((clock / DAY + 3) % 7).toNat < 7
  omega

theorem length_take_three : ∀ name ∈ MONTHS ++ WEEKDAYS, (name.take 3).length = 3 := by decide

/-- **The other symbols** write texts of one length in one zone, or names none of which begins another. -/
theorem Symbol.settles {s : Symbol} (h : s.Variable = false) {when other : Moment}
    (hoffset : when.offset = other.offset) : Settles (s.render when) (s.render other) := by
  cases s with
  | M | d | H | h => cases h
  | MMMM => exact settles_of_prefix months_prefix (month_mem _) (month_mem _)
  | EEEE => exact settles_of_prefix weekdays_prefix (weekday_mem _) (weekday_mem _)
  | MMM =>
    refine settles_of_length ?_
    rw [Symbol.render, Symbol.render, length_take_three _ (List.mem_append_left _ (month_mem _)),
      length_take_three _ (List.mem_append_left _ (month_mem _))]
  | EEE =>
    refine settles_of_length ?_
    rw [Symbol.render, Symbol.render, length_take_three _ (List.mem_append_right _ (weekday_mem _)),
      length_take_three _ (List.mem_append_right _ (weekday_mem _))]
  | a =>
    refine settles_of_length ?_
    simp only [Symbol.render]
    split <;> split <;> rfl
  | Z | XX =>
    refine settles_of_length ?_
    simp only [Symbol.render, hoffset]
  | yyyy | yy | MM | dd | DDD | HH | hh | mm | ss =>
    refine settles_of_length ?_
    simp only [Symbol.render, length_fixed]
  | S width =>
    refine settles_of_length ?_
    simp only [Symbol.render, List.length_take, length_fixed]

/-- Equal paths of parts that settle have equal parts. -/
theorem textOf_settles {when other : Moment} :
    ∀ {parts : List Part}, (∀ part ∈ parts, Settles (part.text when values) (part.text other values)) →
      textOf when values parts = textOf other values parts →
        ∀ part ∈ parts, part.text when values = part.text other values
  | [], _, _ => by simp
  | part :: rest, hsettles, heq => by
    rw [textOf_cons, textOf_cons] at heq
    have hpart := hsettles part List.mem_cons_self _ _ heq
    rw [hpart, List.append_cancel_left_eq] at heq
    intro other hother
    rcases List.mem_cons.mp hother with rfl | hmem
    · exact hpart
    · exact textOf_settles (fun p hp => hsettles p (List.mem_cons_of_mem _ hp)) heq other hmem

/-! ## 5. What a symbol tells -/

theorem fixed_inj {width n m : Nat} (hn : n < 10 ^ width) (hm : m < 10 ^ width)
    (h : fixed width n = fixed width m) : n = m := by
  have hnumeral := numeral_fixed hn
  rw [h, numeral_fixed hm] at hnumeral
  exact (Option.some.inj hnumeral).symm

theorem numeralOf_inj {n m : Nat} (h : numeralOf n = numeralOf m) : n = m := by
  have hdigits : Nat.toDigits 10 n = Nat.toDigits 10 m := h
  rw [← @Nat.ofDigitChars_ten_toDigits n, hdigits, Nat.ofDigitChars_ten_toDigits]

theorem isDigit_numeralOf {n : Nat} {c : Char} (h : c ∈ numeralOf n) : c.isDigit = true :=
  Nat.isDigit_of_mem_toDigits (by decide) (by decide) h

theorem numeralOf_ne_nil (n : Nat) : numeralOf n ≠ [] := Nat.toDigits_ne_nil

theorem signedText_inj {n m : Int} (h : signedText n = signedText m) : n = m := by
  have hsign : ∀ {a b : Nat}, '-' :: numeralOf a ≠ numeralOf b := by
    intro a b heq
    have hdigit := isDigit_numeralOf (heq ▸ List.mem_cons_self : '-' ∈ numeralOf b)
    exact absurd hdigit (by decide)
  unfold signedText at h
  split at h <;> split at h
  · have hnat := numeralOf_inj (List.cons.inj h).2
    omega
  · exact absurd h hsign
  · exact absurd h.symm hsign
  · have hnat := numeralOf_inj h
    omega

section Tells

variable {when other : Moment}

theorem month_lt (clock : Int) : (dateOf clock).month < 10 ^ 2 := by
  have hrange := (civil_range (clock / DAY)).1
  show (civil (clock / DAY)).month < 100
  omega

theorem day_lt (clock : Int) : (dateOf clock).day < 10 ^ 2 := by
  have hrange := (civil_range (clock / DAY)).2
  show (civil (clock / DAY)).day < 100
  omega

theorem hourOf_lt (clock : Int) : hourOf clock < 24 := by
  have htime := timeOf_lt clock
  unfold hourOf
  omega

theorem names_inj : ∀ i < 12, ∀ j < 12, ((MONTHS.getD i []).take 3 = (MONTHS.getD j []).take 3 → i = j) ∧
      (MONTHS.getD i [] = MONTHS.getD j [] → i = j) := by decide

theorem month_of_render {s : Symbol} (hs : s = .MM ∨ s = .M ∨ s = .MMM ∨ s = .MMMM)
    (h : s.render when = s.render other) : (dateOf when.clock).month = (dateOf other.clock).month := by
  have hrange := (civil_range (when.clock / DAY)).1
  have hother := (civil_range (other.clock / DAY)).1
  have hnames := names_inj ((dateOf when.clock).month - 1)
    (by show (civil (when.clock / DAY)).month - 1 < 12; omega)
    ((dateOf other.clock).month - 1) (by show (civil (other.clock / DAY)).month - 1 < 12; omega)
  have hpred : (dateOf when.clock).month - 1 = (dateOf other.clock).month - 1 →
      (dateOf when.clock).month = (dateOf other.clock).month := by
    unfold dateOf
    omega
  rcases hs with rfl | rfl | rfl | rfl
  · exact fixed_inj (month_lt _) (month_lt _) h
  · exact numeralOf_inj h
  · exact hpred (hnames.1 h)
  · exact hpred (hnames.2 h)

theorem day_of_render {s : Symbol} (hs : s = .dd ∨ s = .d) (h : s.render when = s.render other) :
    (dateOf when.clock).day = (dateOf other.clock).day := by
  rcases hs with rfl | rfl
  · exact fixed_inj (day_lt _) (day_lt _) h
  · exact numeralOf_inj h

theorem hour_of_render {s : Symbol} (hs : s = .HH ∨ s = .H) (h : s.render when = s.render other) :
    hourOf when.clock = hourOf other.clock := by
  have hwhen := hourOf_lt when.clock
  have hother := hourOf_lt other.clock
  rcases hs with rfl | rfl
  · exact fixed_inj (by omega) (by omega) h
  · exact numeralOf_inj h

theorem hour_of_render12 {s : Symbol} (hs : s = .hh ∨ s = .h) (h : s.render when = s.render other)
    (ha : Symbol.a.render when = Symbol.a.render other) : hourOf when.clock = hourOf other.clock := by
  have hwhen := hourOf_lt when.clock
  have hother := hourOf_lt other.clock
  have htwelve : hour12 (hourOf when.clock) = hour12 (hourOf other.clock) := by
    rcases hs with rfl | rfl
    · exact fixed_inj (by unfold hour12; omega) (by unfold hour12; omega) h
    · exact numeralOf_inj h
  have hhalf : hourOf when.clock < 12 ↔ hourOf other.clock < 12 := by
    simp only [Symbol.render] at ha
    split at ha <;> split at ha <;> first | exact absurd ha (by decide) | skip
    · exact ⟨fun _ => ‹_›, fun _ => ‹_›⟩
    · exact ⟨fun hlt => absurd hlt ‹_›, fun hlt => absurd hlt ‹_›⟩
  unfold hour12 at htwelve
  omega

theorem year_of_render (hwhen : (dateOf when.clock).year.toNat < 10000)
    (hother : (dateOf other.clock).year.toNat < 10000) (h : Symbol.yyyy.render when = Symbol.yyyy.render other) :
    (dateOf when.clock).year.toNat = (dateOf other.clock).year.toNat :=
  fixed_inj hwhen hother h

theorem date_of_render (hyear : (dateOf when.clock).year = (dateOf other.clock).year)
    (h : Symbol.DDD.render when = Symbol.DDD.render other) : dateOf when.clock = dateOf other.clock := by
  have hwhen := civil_valid (when.clock / DAY)
  have hother := civil_valid (other.clock / DAY)
  have hrange := ordinal_range hwhen
  have hrange' := ordinal_range hother
  have hday : dayOfYear when.clock = dayOfYear other.clock := by
    refine fixed_inj ?_ ?_ h
    · show (civil (when.clock / DAY)).ordinal.toNat < 1000
      omega
    · show (civil (other.clock / DAY)).ordinal.toNat < 1000
      omega
  have hnat : (civil (when.clock / DAY)).ordinal.toNat = (civil (other.clock / DAY)).ordinal.toNat := hday
  have hordinal : (civil (when.clock / DAY)).ordinal = (civil (other.clock / DAY)).ordinal := by omega
  exact ordinal_inj hwhen hother hyear hordinal

/-- The Unix time tells a whole second. -/
theorem instant_of_render {unit : EpochUnit} (hwhen : when.instant % 1000000 = 0)
    (hother : other.instant % 1000000 = 0) (h : unit.render when = unit.render other) :
    when.instant = other.instant := by
  have hsigned := signedText_inj h
  rw [hwhen, hother] at hsigned
  cases unit <;> simp only [EpochUnit.perSecond, Nat.cast_ofNat, Nat.cast_one] at hsigned <;> omega

end Tells

end Ceres.Paths
