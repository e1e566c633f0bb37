/-
  File:      Ceres/Paths/Reading.lean
  Subject:   READING A FOLDER'S NAME (`paths.py`: `_Capture`, `_LAYOUT_ATOMS`, `_segment_pattern`, `_merge`,
             `_period`, `_localize`).

  A name is read by a regular expression, what it says is merged with what the folders above say, and the
  fields known so far name a span of time.

  * `Symbol.capture`, `Level` -- how an atom and a level of folders are read;
  * `merge`, `period` -- fields from names, and the span they name;
  * `readName` -- a name in a folder, with what is known of the folder;
  * **`readName_knows`**, `readName_kept` -- which fields are known below a level does not depend on its names,
    and what is known stays;
  * `Says`, **`readName_said`** -- a name that says the values of one time is read as these; `says_written` --
    so is one that writes them in full.
-/
import Mathlib.Data.List.GetD
import Ceres.Library.Backtrack
import Ceres.Paths.Layout

namespace Ceres.Paths

open Ceres.Library Ceres.Database

/-! ## 1. Captures -/

/-- The zeros of the decimal digits of Unicode, ten in a row from each. -/
def ZEROS : List Nat :=
  [0x30, 0x660, 0x6f0, 0x7c0, 0x966, 0x9e6, 0xa66, 0xae6, 0xb66, 0xbe6, 0xc66, 0xce6, 0xd66, 0xde6, 0xe50,
    0xed0, 0xf20, 0x1040, 0x1090, 0x17e0, 0x1810, 0x1946, 0x19d0, 0x1a80, 0x1a90, 0x1b50, 0x1bb0, 0x1c40,
    0x1c50, 0xa620, 0xa8d0, 0xa900, 0xa9d0, 0xa9f0, 0xaa50, 0xabf0, 0xff10, 0x104a0, 0x10d30, 0x10d40,
    0x11066, 0x110f0, 0x11136, 0x111d0, 0x112f0, 0x11450, 0x114d0, 0x11650, 0x116c0, 0x116d0, 0x116da,
    0x11730, 0x118e0, 0x11950, 0x11bf0, 0x11c50, 0x11d50, 0x11da0, 0x11f50, 0x16130, 0x16a60, 0x16ac0,
    0x16b50, 0x16d70, 0x1ccf0, 0x1d7ce, 0x1d7d8, 0x1d7e2, 0x1d7ec, 0x1d7f6, 0x1e140, 0x1e2f0, 0x1e4f0,
    0x1e5f1, 0x1e950, 0x1fbf0]

/-- The value of a decimal digit. -/
def decimal (c : Char) : Option Nat :=
  (ZEROS.find? fun start => decide (start ≤ c.toNat ∧ c.toNat < start + 10)).map (c.toNat - ·)

/-- `\d`. -/
def isDecimal (c : Char) : Bool := (decimal c).isSome

/-- `int` of a text of decimal digits. -/
def intOf (text : Text) : Nat := text.foldl (fun n c => 10 * n + (decimal c).getD 0) 0

/-- What is read back: so many digits, counted from a base, or one of some names. -/
inductive Spelling where
  | digits (least most base : Nat)
  | names (names : List Text)

/-- `_Capture`. -/
structure Capture where
  field : Field
  spelling : Spelling

def Capture.pattern (capture : Capture) : Choice Char :=
  match capture.spelling with
  | .digits least most _ => Choice.run isDecimal least most
  | .names names => Choice.words names

def Capture.read (capture : Capture) (text : Text) : Nat :=
  match capture.spelling with
  | .digits _ _ base => base + intOf text
  | .names names => names.idxOf text + 1

/-- `_LAYOUT_ATOMS`. -/
def Symbol.capture : Symbol → Option Capture
  | yyyy => some ⟨.year, .digits 4 4 0⟩
  | yy => some ⟨.year, .digits 2 2 2000⟩
  | MM => some ⟨.month, .digits 2 2 0⟩
  | M => some ⟨.month, .digits 1 2 0⟩
  | MMM => some ⟨.month, .names (MONTHS.map (·.take 3))⟩
  | MMMM => some ⟨.month, .names MONTHS⟩
  | DDD => some ⟨.doy, .digits 3 3 0⟩
  | dd => some ⟨.day, .digits 2 2 0⟩
  | d => some ⟨.day, .digits 1 2 0⟩
  | HH => some ⟨.hour, .digits 2 2 0⟩
  | H => some ⟨.hour, .digits 1 2 0⟩
  | hh => some ⟨.hour12, .digits 2 2 0⟩
  | h => some ⟨.hour12, .digits 1 2 0⟩
  | a => some ⟨.meridiem, .names [['A', 'M'], ['P', 'M']]⟩
  | mm => some ⟨.minute, .digits 2 2 0⟩
  | ss => some ⟨.second, .digits 2 2 0⟩
  | S _ | EEE | EEEE | Z | XX => none

theorem capture_field (s : Symbol) : s.capture.map Capture.field = s.field := by
  cases s <;> rfl

def Part.capture : Part → Option Capture
  | atom (.symbol s) => s.capture
  | _ => none

/-- What a part writes at any time; the constructor lets no atom through that is neither a name nor read. -/
def Part.constant (values : Values) : Part → Text
  | literal text => text
  | atom (.name n) => (values n).getD []
  | atom _ => []

/-- A part as `_segment_pattern` takes it. -/
def Part.piece (values : Values) (part : Part) : Piece Char :=
  match part.capture with
  | some capture => .choice capture.pattern
  | none => .literal (part.constant values)

/-- A level of folders, as `_segment_pattern` reads its names. -/
def pieces (values : Values) (segment : List Part) : List (Piece Char) := segment.map (Part.piece values)

def captures (segment : List Part) : List Capture := segment.filterMap Part.capture

/-! ## 2. Fields -/

/-- What is known of a folder. -/
abbrev Fields : Type := Field → Option Nat

def Fields.empty : Fields := fun _ => Option.none

/-- `setdefault`, `none` where another value is known. -/
def Fields.setdefault (fields : Fields) (field : Field) (value : Nat) : Option Fields :=
  match fields field with
  | .none => some (Function.update fields field (some value))
  | some known => if known = value then some fields else .none

/-- The values of the captures. -/
def readGroups : Fields → List (Capture × Text) → Option Fields
  | fields, [] => some fields
  | fields, (capture, text) :: rest =>
    (fields.setdefault capture.field (capture.read text)).bind fun fields => readGroups fields rest

/-- An hour and its half of the day make one of the 24 hours. -/
def mergeHalf (fields : Fields) : Option Fields :=
  match fields .hour12, fields .meridiem with
  | some hour, some half =>
    if 1 ≤ hour ∧ hour ≤ 12 then
      Fields.setdefault (Function.update (Function.update fields .hour12 .none) .meridiem .none) .hour
        (hour % 12 + 12 * (half - 1))
    else .none
  | _, _ => some fields

/-- `datetime` has no year 0. -/
inductive YearError where
  | zero
  deriving DecidableEq

/-- A year and a day of it make a month and a day. -/
def mergeDay (fields : Fields) : Except YearError (Option Fields) :=
  match fields .doy, fields .year with
  | some doy, some year =>
    if year = 0 then .error .zero
    else
      -- a day before the year 1 or behind 9999 overflows, and is of another year too
      let day := civil (daysOf ⟨year, 1, 1⟩ + (doy - 1))
      if day.year ≠ year then .ok .none
      else .ok ((fields.setdefault .month day.month).bind fun fields => fields.setdefault .day day.day)
  | _, _ => .ok (some fields)

/-- `_merge`: what is known and what a name says, `none` where they disagree. -/
def merge (known : Fields) (captures : List Capture) (groups : List Text) : Except YearError (Option Fields) :=
  match (readGroups known (captures.zip groups)).bind mergeHalf with
  | .none => .ok .none
  | some fields => mergeDay fields

/-- A name of a level in a folder of which something is known, `none` where it is not one of the level's. -/
def readName (values : Values) (known : Fields) (segment : List Part) (name : Text) :
    Except YearError (Option Fields) :=
  match fullmatch (pieces values segment) name with
  | .none => .ok .none
  | some groups => merge known (captures segment) groups

/-! ## 3. Periods -/

/-- A time zone: the seconds its clocks are ahead of UTC, and the instant at which they show a time (the
    first of two), `none` where `astimezone` fails. -/
structure Zone where
  offset : Int → Int
  localize : Int → Option Int

def Zone.utc : Zone := ⟨fun _ => 0, some⟩

/-- The fields are known from the year down to the depth. -/
def depthOf (fields : Fields) : Nat := (CALENDAR.takeWhile fun field => (fields field).isSome).length

/-- The unit that a depth ends at. -/
def unitAt (depth : Nat) : Field := CALENDAR.getD (depth - 1) .year

/-- What the clocks show at the start of the fields, `none` where there is no such time. -/
def naive (fields : Fields) : Option Int :=
  let date : Date := ⟨(fields .year).getD 0, (fields .month).getD 1, (fields .day).getD 1⟩
  let hour := (fields .hour).getD 0
  let minute := (fields .minute).getD 0
  let second := (fields .second).getD 0
  if 1 ≤ date.year ∧ date.year ≤ 9999 ∧ date.Valid ∧ hour < 24 ∧ minute < 60 ∧ second < 60 then
    some (daysOf date * DAY + ((hour * 60 + minute) * 60 + second : Nat) * 1000000)
  else .none

/-- The end of the year 9999. -/
def LAST : Int := daysOf ⟨10000, 1, 1⟩ * DAY

def within (clock : Int) : Option Int := if clock < LAST then some clock else none

/-- The next value of a unit, `none` behind the year 9999. -/
def nextOf (unit : Field) (start : Int) : Option Int :=
  match unit with
  | .year => within (daysOf ⟨(dateOf start).year + 1, 1, 1⟩ * DAY)
  | .month => (within (start + 32 * DAY)).map fun late => daysOf ⟨(dateOf late).year, (dateOf late).month, 1⟩ * DAY
  | .day => within (start + DAY)
  | .hour => within (start + 3600000000)
  | .minute => within (start + 60000000)
  | .second => within (start + 1000000)
  | .doy | .hour12 | .meridiem => none

inductive Period where
  /-- The fields name no calendar prefix. -/
  | open
  | span (after before : Int)

/-- `_period`, `none` where the fields name no real date. -/
def period (zone : Zone) (fields : Fields) : Option Period :=
  let depth := depthOf fields
  if depth = 0 ∨ (CALENDAR.drop depth).any (fun field => (fields field).isSome) then some .open
  else do
    let start ← naive fields
    let finish ← nextOf (unitAt depth) start
    let after ← zone.localize start
    let before ← zone.localize finish
    return .span after before

/-! ## 4. Which fields are known -/

def Fields.Knows (fields : Fields) (known : Field → Bool) : Prop := ∀ field, (fields field).isSome = known field

/-- With the captures of a level. -/
def gain (known : Field → Bool) (captures : List Capture) (field : Field) : Bool :=
  known field || captures.any fun capture => decide (capture.field = field)

def halfKnown (known : Field → Bool) : Field → Bool :=
  if known .hour12 && known .meridiem then
    Function.update (Function.update (Function.update known .hour12 false) .meridiem false) .hour true
  else known

def dayKnown (known : Field → Bool) : Field → Bool :=
  if known .doy && known .year then Function.update (Function.update known .month true) .day true else known

/-- The fields known below a level. -/
def learn (known : Field → Bool) (segment : List Part) : Field → Bool :=
  dayKnown (halfKnown (gain known (captures segment)))

theorem knows_empty : Fields.empty.Knows fun _ => false := fun _ => rfl

theorem setdefault_eq_some {fields fields' : Fields} {field : Field} {value : Nat}
    (h : fields.setdefault field value = some fields') :
    fields' = Function.update fields field (some value) ∧ (∀ known, fields field = some known → known = value) := by
  unfold Fields.setdefault at h
  cases hfield : fields field with
  | none =>
    rw [hfield] at h
    exact ⟨(Option.some.inj h).symm, by simp⟩
  | some known =>
    rw [hfield] at h
    dsimp only at h
    split at h
    · rename_i hsame
      obtain rfl := Option.some.inj h
      refine ⟨?_, fun other hother => (Option.some.inj hother) ▸ hsame⟩
      rw [← hsame, ← hfield, Function.update_eq_self]
    · cases h

theorem knows_update {fields : Fields} {known : Field → Bool} (h : fields.Knows known) (field : Field)
    (value : Nat) :
    Fields.Knows (Function.update fields field (some value)) (Function.update known field true) := by
  intro f
  by_cases hf : f = field
  · rw [hf, Function.update_self, Function.update_self]
    rfl
  · rw [Function.update_of_ne hf, Function.update_of_ne hf]
    exact h f

theorem readGroups_knows : ∀ {list : List (Capture × Text)} {fields fields' : Fields} {known : Field → Bool},
    readGroups fields list = some fields' → fields.Knows known → fields'.Knows (gain known (list.map Prod.fst))
  | [], fields, fields', known, h, hknown => by
    obtain rfl := Option.some.inj h
    intro f
    rw [hknown f]
    simp [gain]
  | (capture, text) :: rest, fields, fields', known, h, hknown => by
    obtain ⟨middle, hmiddle, hrest⟩ := Option.bind_eq_some_iff.mp h
    obtain ⟨rfl, -⟩ := setdefault_eq_some hmiddle
    have hnext := readGroups_knows hrest (knows_update hknown capture.field (capture.read text))
    intro f
    rw [hnext f]
    simp only [gain, List.map_cons, List.any_cons]
    by_cases hf : f = capture.field
    · rw [hf, Function.update_self]
      simp
    · rw [Function.update_of_ne hf, decide_eq_false (Ne.symm hf), Bool.false_or]

theorem mergeHalf_knows {fields fields' : Fields} {known : Field → Bool} (h : mergeHalf fields = some fields')
    (hknown : fields.Knows known) : fields'.Knows (halfKnown known) := by
  unfold mergeHalf at h
  unfold halfKnown
  rw [← hknown .hour12, ← hknown .meridiem]
  cases hhour : fields .hour12 with
  | none =>
    rw [hhour] at h
    obtain rfl := Option.some.inj h
    exact hknown
  | some hour =>
    cases hmeridiem : fields .meridiem with
    | none =>
      rw [hhour, hmeridiem] at h
      obtain rfl := Option.some.inj h
      exact hknown
    | some half =>
      rw [hhour, hmeridiem] at h
      dsimp only at h
      split at h
      · obtain ⟨rfl, -⟩ := setdefault_eq_some h
        rw [Option.isSome_some, Option.isSome_some, Bool.and_self, if_pos rfl]
        refine knows_update (fun f => ?_) _ _
        simp only [Function.update_apply]
        split_ifs
        · rfl
        · rfl
        · exact hknown f
      · cases h

theorem mergeDay_knows {fields fields' : Fields} {known : Field → Bool}
    (h : mergeDay fields = .ok (some fields')) (hknown : fields.Knows known) : fields'.Knows (dayKnown known) := by
  unfold mergeDay at h
  unfold dayKnown
  rw [← hknown .doy, ← hknown .year]
  cases hdoy : fields .doy with
  | none =>
    rw [hdoy] at h
    obtain rfl := Option.some.inj (Except.ok.inj h)
    exact hknown
  | some doy =>
    cases hyear : fields .year with
    | none =>
      rw [hdoy, hyear] at h
      obtain rfl := Option.some.inj (Except.ok.inj h)
      exact hknown
    | some year =>
      rw [hdoy, hyear] at h
      dsimp only at h
      split_ifs at h
      · cases h
      · obtain ⟨middle, hmonth, hday⟩ := Option.bind_eq_some_iff.mp (Except.ok.inj h)
        obtain ⟨rfl, -⟩ := setdefault_eq_some hmonth
        obtain ⟨rfl, -⟩ := setdefault_eq_some hday
        rw [Option.isSome_some, Option.isSome_some, Bool.and_self, if_pos rfl]
        exact knows_update (knows_update hknown _ _) _ _

theorem reads_length {values : Values} : ∀ {segment : List Part} {text : Text} {groups : List Text},
    ReadsAs (pieces values segment) text groups → groups.length = (captures segment).length
  | [], _, _, .nil => rfl
  | part :: rest, text, groups, h => by
    unfold pieces at h
    rw [List.map_cons] at h
    unfold captures Part.piece at *
    cases hcapture : part.capture with
    | none =>
      rw [hcapture] at h
      rw [List.filterMap_cons_none hcapture]
      cases h with
      | literal h => exact reads_length h
    | some capture =>
      rw [hcapture] at h
      rw [List.filterMap_cons_some hcapture]
      cases h with
      | choice _ h => exact congrArg (· + 1) (reads_length h)

/-- **Which fields are known** below a level does not depend on the names. -/
theorem readName_knows {values : Values} {fields fields' : Fields} {known : Field → Bool} {segment : List Part}
    {name : Text} (h : readName values fields segment name = .ok (some fields')) (hknown : fields.Knows known) :
    fields'.Knows (learn known segment) := by
  unfold readName at h
  cases hmatch : fullmatch (pieces values segment) name with
  | none =>
    rw [hmatch] at h
    cases h
  | some groups =>
    rw [hmatch] at h
    have hlength := reads_length (reads_of_fullmatch hmatch)
    dsimp only at h
    unfold merge at h
    cases hmerged : (readGroups fields ((captures segment).zip groups)).bind mergeHalf with
    | none =>
      rw [hmerged] at h
      cases h
    | some merged =>
      rw [hmerged] at h
      obtain ⟨middle, hread, hhalf⟩ := Option.bind_eq_some_iff.mp hmerged
      have hgain := readGroups_knows hread hknown
      rw [List.map_fst_zip hlength.ge] at hgain
      exact mergeDay_knows h (mergeHalf_knows hhalf hgain)

/-! ## 5. What is known stays -/

/-- The fields that no later name takes away. -/
def Field.lasting : Field → Bool
  | .hour12 | .meridiem => false
  | _ => true

/-- What the first knows lastingly, the second knows too. -/
def Fields.Kept (fields fields' : Fields) : Prop :=
  ∀ field value, field.lasting = true → fields field = some value → fields' field = some value

theorem Fields.Kept.refl (fields : Fields) : fields.Kept fields := fun _ _ _ h => h

theorem Fields.Kept.trans {a b c : Fields} (hab : a.Kept b) (hbc : b.Kept c) : a.Kept c :=
  fun field value hlasting h => hbc field value hlasting (hab field value hlasting h)

theorem setdefault_kept {fields fields' : Fields} {field : Field} {value : Nat}
    (h : fields.setdefault field value = some fields') : fields.Kept fields' := by
  obtain ⟨rfl, hsame⟩ := setdefault_eq_some h
  intro f known _ hf
  by_cases heq : f = field
  · rw [heq, Function.update_self, hsame known (heq ▸ hf)]
  · rw [Function.update_of_ne heq]
    exact hf

theorem readGroups_kept : ∀ {list : List (Capture × Text)} {fields fields' : Fields},
    readGroups fields list = some fields' → fields.Kept fields'
  | [], fields, fields', h => by
    obtain rfl := Option.some.inj h
    exact .refl fields
  | (capture, text) :: rest, fields, fields', h => by
    obtain ⟨middle, hmiddle, hrest⟩ := Option.bind_eq_some_iff.mp h
    exact (setdefault_kept hmiddle).trans (readGroups_kept hrest)

theorem mergeHalf_kept {fields fields' : Fields} (h : mergeHalf fields = some fields') : fields.Kept fields' := by
  unfold mergeHalf at h
  split at h
  · split at h
    · refine Fields.Kept.trans (fun f known hlasting hf => ?_) (setdefault_kept h)
      rw [Function.update_of_ne (by rintro rfl; cases hlasting), Function.update_of_ne (by rintro rfl; cases hlasting)]
      exact hf
    · cases h
  · obtain rfl := Option.some.inj h
    exact .refl fields

theorem mergeDay_kept {fields fields' : Fields} (h : mergeDay fields = .ok (some fields')) :
    fields.Kept fields' := by
  unfold mergeDay at h
  split at h
  · dsimp only at h
    split_ifs at h
    · cases h
    · obtain ⟨middle, hmonth, hday⟩ := Option.bind_eq_some_iff.mp (Except.ok.inj h)
      exact (setdefault_kept hmonth).trans (setdefault_kept hday)
  · obtain rfl := Option.some.inj (Except.ok.inj h)
    exact .refl fields

/-- **What is known of a folder** is known of those in it. -/
theorem readName_kept {values : Values} {fields fields' : Fields} {segment : List Part} {name : Text}
    (h : readName values fields segment name = .ok (some fields')) : fields.Kept fields' := by
  unfold readName at h
  split at h
  · cases h
  · unfold merge at h
    split at h
    · cases h
    · rename_i hmerged
      obtain ⟨middle, hread, hhalf⟩ := Option.bind_eq_some_iff.mp hmerged
      exact ((readGroups_kept hread).trans (mergeHalf_kept hhalf)).trans (mergeDay_kept h)

/-! ## 6. Names written in full -/

/-- A decimal digit of the ten from `start`. -/
def Decimals (start : Nat) : Prop := ∀ d < 10, decimal (Char.ofNat (start + d)) = some d

theorem decimals_ascii : Decimals 0x30 := by
  unfold Decimals
  decide

/-- The full-width digits. -/
theorem decimals_wide : Decimals 0xff10 := by
  unfold Decimals
  decide

/-- The last digits of a number, with leading zeros. -/
def figures (start : Nat) : Nat → Nat → Text
  | 0, _ => []
  | width + 1, n => figures start width (n / 10) ++ [Char.ofNat (start + n % 10)]

theorem figures_ascii : ∀ width n : Nat, figures 0x30 width n = fixed width n
  | 0, _ => rfl
  | width + 1, n => by rw [figures, fixed, figures_ascii width, digit]

theorem length_figures (start : Nat) : ∀ width n : Nat, (figures start width n).length = width
  | 0, _ => rfl
  | width + 1, n => by simp [figures, length_figures start width]

theorem all_figures {start : Nat} (h : Decimals start) : ∀ width n : Nat,
    (figures start width n).all isDecimal = true
  | 0, _ => rfl
  | width + 1, n => by
    rw [figures, List.all_append, all_figures h width, List.all_cons, List.all_nil, isDecimal,
      h _ (Nat.mod_lt n (by omega))]
    rfl

theorem intOf_figures {start : Nat} (h : Decimals start) : ∀ {width n : Nat}, n < 10 ^ width →
    intOf (figures start width n) = n
  | 0, n, hn => by
    have hzero : n = 0 := by simpa using hn
    rw [hzero]
    rfl
  | width + 1, n, hn => by
    have hrest : intOf (figures start width (n / 10)) = n / 10 := intOf_figures h (by rw [pow_succ] at hn; omega)
    rw [figures, intOf, List.foldl_append]
    rw [intOf] at hrest
    rw [hrest, List.foldl_cons, List.foldl_nil, h _ (Nat.mod_lt n (by omega))]
    show 10 * (n / 10) + n % 10 = n
    omega

/-- The value of each field. -/
abbrev Stamp : Type := Field → Nat

/-- A value in as many digits as are read at most. -/
def Capture.write (start : Nat) (capture : Capture) (value : Nat) : Text :=
  match capture.spelling with
  | .digits _ most base => figures start most (value - base)
  | .names names => names.getD (value - 1) []

def Capture.Fits (capture : Capture) (value : Nat) : Prop :=
  match capture.spelling with
  | .digits _ most base => base ≤ value ∧ value < base + 10 ^ most
  | .names names => 1 ≤ value ∧ value ≤ names.length

/-- Digits in order, and names of which none begins another. -/
def Spelling.Sound : Spelling → Prop
  | .digits least most _ => least ≤ most
  | .names words => (∀ a ∈ words, ∀ b ∈ words, a <+: b → a = b) ∧ words.Nodup

theorem capture_sound {s : Symbol} {capture : Capture} (h : s.capture = some capture) :
    capture.spelling.Sound := by
  have hnames : ∀ words ∈ [MONTHS.map (·.take 3), MONTHS, [['A', 'M'], ['P', 'M']]],
      (Spelling.names words).Sound := by
    unfold Spelling.Sound
    decide
  cases s <;> cases h
  case MMM => exact hnames _ (by simp)
  case MMMM => exact hnames _ (by simp)
  case a => exact hnames _ (by simp)
  all_goals exact Nat.le_of_ble_eq_true rfl

theorem part_capture_sound {part : Part} {capture : Capture} (h : part.capture = some capture) :
    capture.spelling.Sound := by
  unfold Part.capture at h
  split at h
  · exact capture_sound h
  · cases h

theorem captures_sound {segment : List Part} {capture : Capture} (h : capture ∈ captures segment) :
    capture.spelling.Sound := by
  obtain ⟨part, -, hpart⟩ := List.mem_filterMap.mp h
  exact part_capture_sound hpart

section Written

variable {start : Nat} {capture : Capture} {value : Nat}

theorem read_write (hstart : Decimals start) (hsound : capture.spelling.Sound) (hfits : capture.Fits value) :
    capture.read (capture.write start value) = value := by
  obtain ⟨field, spelling⟩ := capture
  cases spelling with
  | digits least most base =>
    obtain ⟨hbase, hlt⟩ := hfits
    show base + intOf (figures start most (value - base)) = value
    rw [intOf_figures hstart (by omega)]
    omega
  | names names =>
    obtain ⟨hlow, hhigh⟩ := hfits
    have hlt : value - 1 < names.length := Nat.sub_one_lt_of_le hlow hhigh
    show names.idxOf (names.getD (value - 1) []) + 1 = value
    rw [List.getD_eq_getElem _ _ hlt, hsound.2.idxOf_getElem, Nat.sub_add_cancel hlow]

theorem head_write (hstart : Decimals start) (hsound : capture.spelling.Sound) (hfits : capture.Fits value)
    (text : Text) : (capture.pattern.splits (capture.write start value ++ text)).head? =
      some (capture.write start value, text) := by
  obtain ⟨field, spelling⟩ := capture
  cases spelling with
  | digits least most base =>
    exact head_run hsound text (length_figures _ _ _) (all_figures hstart _ _)
  | names names =>
    obtain ⟨hlow, hhigh⟩ := hfits
    have hlt : value - 1 < names.length := Nat.sub_one_lt_of_le hlow hhigh
    refine head_words hsound.1 ?_ text
    show names.getD (value - 1) [] ∈ names
    rw [List.getD_eq_getElem _ _ hlt]
    exact List.getElem_mem hlt

end Written

/-- A part with its value in full. -/
def Part.write (start : Nat) (v : Stamp) (values : Values) (part : Part) : Text :=
  match part.capture with
  | some capture => capture.write start (v capture.field)
  | none => part.constant values

/-- A level's name with every value in full. -/
def writeName (start : Nat) (v : Stamp) (values : Values) (segment : List Part) : Text :=
  (segment.map (Part.write start v values)).flatten

theorem preferred_write {start : Nat} (hstart : Decimals start) {v : Stamp} {values : Values} :
    ∀ {segment : List Part}, (∀ capture ∈ captures segment, capture.Fits (v capture.field)) →
      Preferred (pieces values segment) (writeName start v values segment)
        ((captures segment).map fun capture => capture.write start (v capture.field))
  | [], _ => .nil
  | part :: rest, hfits => by
    unfold pieces writeName captures Part.piece Part.write at *
    cases hcapture : part.capture with
    | none =>
      rw [List.filterMap_cons_none hcapture] at hfits ⊢
      rw [List.map_cons, List.map_cons, List.flatten_cons, hcapture]
      exact .literal (preferred_write hstart hfits)
    | some capture =>
      rw [List.filterMap_cons_some hcapture] at hfits ⊢
      rw [List.map_cons, List.map_cons, List.map_cons, List.flatten_cons, hcapture]
      obtain ⟨hfirst, hrest⟩ := List.forall_mem_cons.mp hfits
      exact .choice (head_write hstart (part_capture_sound hcapture) hfirst _) (preferred_write hstart hrest)

/-! ## 7. Fields of one time -/

def Fields.Of (v : Stamp) (fields : Fields) : Prop := ∀ field value, fields field = some value → value = v field

/-- The halves of the day and the days of the year agree with the hours and the months; there is no year 0. -/
structure Coherent (v : Stamp) : Prop where
  half : 1 ≤ v .hour12 ∧ v .hour12 ≤ 12 ∧ v .hour = v .hour12 % 12 + 12 * (v .meridiem - 1)
  day : v .year ≠ 0 → civil (daysOf ⟨v .year, 1, 1⟩ + (v .doy - 1)) = ⟨v .year, v .month, v .day⟩

theorem of_empty (v : Stamp) : Fields.empty.Of v := fun _ _ h => nomatch h

section Of

variable {v : Stamp} {fields : Fields}

theorem setdefault_of (h : fields.Of v) (field : Field) :
    ∃ fields', fields.setdefault field (v field) = some fields' ∧ fields'.Of v := by
  unfold Fields.setdefault
  cases hfield : fields field with
  | none =>
    refine ⟨_, rfl, fun f value hf => ?_⟩
    by_cases heq : f = field
    · rw [heq, Function.update_self] at hf
      rw [heq]
      exact (Option.some.inj hf).symm
    · rw [Function.update_of_ne heq] at hf
      exact h f value hf
  | some known => exact ⟨fields, if_pos (h field known hfield), h⟩

theorem readGroups_of : ∀ {list : List (Capture × Text)} {fields : Fields}, fields.Of v →
    (∀ pair ∈ list, pair.1.read pair.2 = v pair.1.field) →
      ∃ fields', readGroups fields list = some fields' ∧ fields'.Of v
  | [], fields, h, _ => ⟨fields, rfl, h⟩
  | (capture, text) :: rest, fields, h, hread => by
    obtain ⟨hfirst, hrest⟩ := List.forall_mem_cons.mp hread
    obtain ⟨middle, hmiddle, hof⟩ := setdefault_of h capture.field
    obtain ⟨fields', hfields, hof'⟩ := readGroups_of hof hrest
    refine ⟨fields', ?_, hof'⟩
    rw [readGroups]
    dsimp only at hfirst
    rw [hfirst, hmiddle]
    exact hfields

theorem mergeHalf_of (hv : Coherent v) (h : fields.Of v) :
    ∃ fields', mergeHalf fields = some fields' ∧ fields'.Of v := by
  unfold mergeHalf
  cases hhour : fields .hour12 with
  | none => exact ⟨fields, rfl, h⟩
  | some hour =>
    cases hhalf : fields .meridiem with
    | none => exact ⟨fields, rfl, h⟩
    | some half =>
      obtain ⟨hlow, hhigh, hsame⟩ := hv.half
      dsimp only
      rw [h _ _ hhour, h _ _ hhalf, if_pos ⟨hlow, hhigh⟩, ← hsame]
      refine setdefault_of (fun f value hf => ?_) .hour
      simp only [Function.update_apply] at hf
      split_ifs at hf
      exact h f value hf

theorem mergeDay_of (hv : Coherent v) (h : fields.Of v)
    (hyear : (fields .doy).isSome = true → (fields .year).isSome = true → v .year ≠ 0) :
    ∃ fields', mergeDay fields = .ok (some fields') ∧ fields'.Of v := by
  unfold mergeDay
  cases hdoy : fields .doy with
  | none => exact ⟨fields, rfl, h⟩
  | some doy =>
    cases hknown : fields .year with
    | none => exact ⟨fields, rfl, h⟩
    | some year =>
      have hne : v .year ≠ 0 := hyear (by rw [hdoy]; rfl) (by rw [hknown]; rfl)
      dsimp only
      rw [h _ _ hdoy, h _ _ hknown, if_neg hne, hv.day hne]
      obtain ⟨middle, hmonth, hof⟩ := setdefault_of h .month
      obtain ⟨fields', hday, hof'⟩ := setdefault_of hof .day
      refine ⟨fields', ?_, hof'⟩
      simp only [ne_eq, not_true, if_false, hmonth, Option.bind_some, hday]

theorem mergeDay_zero (h : fields.Of v) (hyear : v .year = 0) (hdoy : (fields .doy).isSome = true)
    (hknown : (fields .year).isSome = true) : mergeDay fields = .error .zero := by
  obtain ⟨doy, hdoy⟩ := Option.isSome_iff_exists.mp hdoy
  obtain ⟨year, hknown⟩ := Option.isSome_iff_exists.mp hknown
  unfold mergeDay
  rw [hdoy, hknown]
  dsimp only
  rw [if_pos ((h _ _ hknown).trans hyear)]

end Of

/-- The fields before a day of the year is merged. -/
def halfway (known : Field → Bool) (segment : List Part) : Field → Bool :=
  halfKnown (gain known (captures segment))

/-- The texts a name is read into say the stamp's values. -/
def Says (values : Values) (v : Stamp) (segment : List Part) (name : Text) : Prop :=
  ∃ groups, fullmatch (pieces values segment) name = some groups ∧
    ∀ pair ∈ (captures segment).zip groups, pair.1.read pair.2 = v pair.1.field

theorem says_written {start : Nat} (hstart : Decimals start) {v : Stamp} {values : Values} {segment : List Part}
    (hfits : ∀ capture ∈ captures segment, capture.Fits (v capture.field)) :
    Says values v segment (writeName start v values segment) := by
  refine ⟨_, fullmatch_preferred (preferred_write hstart hfits), fun pair hpair => ?_⟩
  rw [← List.map_prod_left_eq_zip] at hpair
  obtain ⟨capture, hcapture, rfl⟩ := List.mem_map.mp hpair
  exact read_write hstart (captures_sound hcapture) (hfits capture hcapture)

section Said

variable {v : Stamp} {values : Values} {fields : Fields} {known : Field → Bool} {segment : List Part} {name : Text}

theorem merge_said (hv : Coherent v) (hof : fields.Of v) (hknown : fields.Knows known)
    (hsaying : Says values v segment name) :
    ∃ middle : Fields, readName values fields segment name = mergeDay middle ∧ middle.Of v ∧
      middle.Knows (halfway known segment) := by
  obtain ⟨groups, hmatch, hread⟩ := hsaying
  have hlength := reads_length (reads_of_fullmatch hmatch)
  obtain ⟨first, hfirst, hof⟩ := readGroups_of hof hread
  obtain ⟨middle, hmiddle, hof⟩ := mergeHalf_of hv hof
  have hgain := readGroups_knows hfirst hknown
  rw [List.map_fst_zip hlength.ge] at hgain
  refine ⟨middle, ?_, hof, mergeHalf_knows hmiddle hgain⟩
  unfold readName merge
  rw [hmatch]
  dsimp only
  rw [hfirst, Option.bind_some, hmiddle]

/-- **A name is read as it says**, unless it makes a day of the year 0 known. -/
theorem readName_said (hv : Coherent v) (hof : fields.Of v) (hknown : fields.Knows known)
    (hsaying : Says values v segment name)
    (hyear : halfway known segment .doy = true → halfway known segment .year = true → v .year ≠ 0) :
    ∃ fields', readName values fields segment name = .ok (some fields') ∧ fields'.Of v ∧
      fields'.Knows (learn known segment) := by
  obtain ⟨middle, hread, hmiddle, hhalf⟩ := merge_said hv hof hknown hsaying
  obtain ⟨fields', hday, hof'⟩ := mergeDay_of hv hmiddle
    (fun hdoy hknown => hyear ((hhalf .doy).symm.trans hdoy) ((hhalf .year).symm.trans hknown))
  exact ⟨fields', hread.trans hday, hof', readName_knows (hread.trans hday) hknown⟩

theorem readName_zero (hv : Coherent v) (hof : fields.Of v) (hknown : fields.Knows known)
    (hsaying : Says values v segment name) (hyear : v .year = 0) (hdoy : halfway known segment .doy = true)
    (hboth : halfway known segment .year = true) : readName values fields segment name = .error .zero := by
  obtain ⟨middle, hread, hmiddle, hhalf⟩ := merge_said hv hof hknown hsaying
  rw [hread]
  exact mergeDay_zero hmiddle hyear ((hhalf .doy).trans hdoy) ((hhalf .year).trans hboth)

end Said

end Ceres.Paths
