/-
  File:      Ceres/Paths/Walk.lean
  Subject:   THE WALK THROUGH A LAYOUT'S FOLDERS (`paths.py`: `PathLayout.walk`).

  The walk goes down a level for each segment of the layout. In a folder it reads the names of the entries,
  leaves out those whose period misses the range, and visits the others in the order of their fields.

  * `visitor`, `PathLayout.walk` -- the walk; `PathLayout.startOf` -- the start of a folder's period;
  * `knownOf`, **`learn_knownOf`** -- what is known below some levels, from the atoms in them;
  * `naive_fields`, **`naive_lt_iff`** -- times order as their fields do;
  * `stampOf` -- the fields of a time; **`period_stamp`** -- a period they name holds it.
-/
import Ceres.Library.Folders
import Ceres.Paths.Reading

namespace Ceres.Paths

open Ceres.Library Ceres.Database

/-! ## 1. The walk -/

/-- How a level reads a name. -/
def reader (values : Values) (segment : List Part) (known : Fields) (name : Text) :
    Except YearError (Option Fields) := readName values known segment name

/-- What `sorted` compares. -/
def keyOf (child : Text × Fields) : List Nat ×ₗ Text :=
  toLex ((CALENDAR ++ [Field.doy]).map fun field => (child.2 field).getD 0, child.1)

/-- The period of a folder overlaps the range, or is not known yet. -/
def admits (zone : Zone) (after before : Int) (fields : Fields) : Bool :=
  match period zone fields with
  | none => false
  | some .open => true
  | some (.span first last) => decide (first < before ∧ after < last)

def visitor (values : Values) (zone : Zone) (after before : Int) :
    Visitor (List Part) Fields YearError Text (List Nat ×ₗ Text) where
  read := reader values
  accepts := admits zone after before
  key := keyOf

/-- A name without a value. -/
def Part.lacks (values : Values) : Part → Bool
  | atom (.name n) => (values n).isNone
  | _ => false

/-- The levels of folders. -/
def PathLayout.levels (layout : PathLayout) : List (List Part) := segmentsOf layout.parts

/-- `walk` of an aware range: the folders below the root, as the names of their paths. -/
def PathLayout.walk (layout : PathLayout) (folders : Folders Text) (after before : Int) (zone : Zone)
    (values : Values) : Except PathError (Walked (List Text)) :=
  match layout.parts.find? (Part.lacks values) with
  | some (.atom a) => .error (.noValue a)
  | _ => .ok ((visitor values zone after before).visit folders layout.levels [] Fields.empty)

/-- What is known of a folder. -/
def PathLayout.fieldsOf (layout : PathLayout) (values : Values) (folder : List Text) : Option Fields :=
  readDown (reader values) (layout.levels.take folder.length) Fields.empty folder

/-- The start of a folder's period, in UTC. -/
def PathLayout.startOf (layout : PathLayout) (values : Values) (folder : List Text) : Option Int :=
  (layout.fieldsOf values folder).bind fun fields =>
    match period .utc fields with
    | some (.span start _) => some start
    | _ => none

theorem walk_ok {layout : PathLayout} {folders : Folders Text} {after before : Int} {zone : Zone} {values : Values}
    {walked : Walked (List Text)} (h : layout.walk folders after before zone values = .ok walked) :
    walked = (visitor values zone after before).visit folders layout.levels [] Fields.empty := by
  unfold PathLayout.walk at h
  split at h
  · cases h
  · exact (Except.ok.inj h).symm

theorem walk_of {layout : PathLayout} (folders : Folders Text) (after before : Int) (zone : Zone) {values : Values}
    (h : ∀ part ∈ layout.parts, part.lacks values = false) : layout.walk folders after before zone values =
      .ok ((visitor values zone after before).visit folders layout.levels [] Fields.empty) := by
  unfold PathLayout.walk
  rw [List.find?_eq_none.mpr fun part hpart => by rw [h part hpart]; decide]

/-! ## 2. What is known below some levels -/

def reads (parts : List Part) (field : Field) : Bool := parts.any fun part => decide (part.field = some field)

def knownOf (read : Field → Bool) : Field → Bool
  | .month => read .month || (read .doy && read .year)
  | .day => read .day || (read .doy && read .year)
  | .hour => read .hour || read .hour12
  | .hour12 | .meridiem => false
  | field => read field

theorem part_capture_field (part : Part) : part.capture.map Capture.field = part.field := by
  cases part with
  | literal text => rfl
  | atom a =>
    cases a with
    | symbol s => exact capture_field s
    | epoch unit => rfl
    | name n => rfl

theorem captures_any (segment : List Part) (field : Field) :
    (captures segment).any (fun capture => decide (capture.field = field)) = reads segment field := by
  induction segment with
  | nil => rfl
  | cons part rest ih =>
    have hpart := part_capture_field part
    unfold captures reads at *
    rw [List.any_cons, ← ih]
    cases hcapture : part.capture with
    | none =>
      rw [hcapture] at hpart
      rw [List.filterMap_cons_none hcapture, ← hpart]
      simp
    | some capture =>
      rw [hcapture] at hpart
      rw [List.filterMap_cons_some hcapture, ← hpart, List.any_cons]
      simp

theorem reads_append (parts rest : List Part) (field : Field) :
    reads (parts ++ rest) field = (reads parts field || reads rest field) := List.any_append

theorem reads_halved {segment : List Part} (h : halved segment = true) :
    reads segment .hour12 = reads segment .meridiem := by
  have hhour : ∀ part : Part, part.field = some .hour12 ↔ part = .atom (.symbol .hh) ∨ part = .atom (.symbol .h) := by
    intro part
    rcases part with text | s | unit | n
    · simp [Part.field]
    · cases s <;> simp [Part.field, Symbol.field]
    · simp [Part.field]
    · simp [Part.field]
  have hhalf : ∀ part : Part, part.field = some .meridiem ↔ part = .atom (.symbol .a) := by
    intro part
    rcases part with text | s | unit | n
    · simp [Part.field]
    · cases s <;> simp [Part.field, Symbol.field]
    · simp [Part.field]
    · simp [Part.field]
  have h : (Part.atom (.symbol .hh) ∈ segment ∨ Part.atom (.symbol .h) ∈ segment) ↔
      Part.atom (.symbol .a) ∈ segment := by
    have hsame := Bool.eq_iff_iff.mp (eq_of_beq h)
    rwa [Bool.or_eq_true, decide_eq_true_eq, decide_eq_true_eq, decide_eq_true_eq] at hsame
  rw [Bool.eq_iff_iff]
  simp only [reads, List.any_eq_true, decide_eq_true_eq, hhour, hhalf]
  constructor
  · rintro ⟨part, hpart, rfl | rfl⟩
    · exact ⟨_, h.mp (.inl hpart), rfl⟩
    · exact ⟨_, h.mp (.inr hpart), rfl⟩
  · rintro ⟨part, hpart, rfl⟩
    rcases h.mpr hpart with hmem | hmem
    · exact ⟨_, hmem, .inl rfl⟩
    · exact ⟨_, hmem, .inr rfl⟩

theorem knownOf_or {above below : Field → Bool} (h : below .hour12 = below .meridiem) :
    dayKnown (halfKnown fun field => knownOf above field || below field) =
      knownOf fun field => above field || below field := by
  have hhalf : (halfKnown fun field => knownOf above field || below field) = fun field =>
      if field = .hour12 ∨ field = .meridiem then false
      else if field = .hour then above .hour || above .hour12 || below .hour || below .hour12
      else knownOf above field || below field := by
    unfold halfKnown
    simp only [knownOf, Bool.false_or, ← h, Bool.and_self]
    funext field
    cases hbelow : below .hour12
    · cases field <;> simp [hbelow, ← h]
    · cases field <;> simp
  have hplain : ∀ value doy year value' doy' year' : Bool, ¬ ((doy || doy') && (year || year')) = true →
      (value || doy && year || value') = (value || value' || (doy || doy') && (year || year')) := by decide
  rw [hhalf]
  unfold dayKnown
  funext field
  split_ifs with hdoy
  · have hboth : ((above .doy || below .doy) && (above .year || below .year)) = true := hdoy
    cases field with
    | month | day =>
      simp only [knownOf, hboth, Bool.or_true]
      rfl
    | hour =>
      show (above .hour || above .hour12 || below .hour || below .hour12) =
        (above .hour || below .hour || (above .hour12 || below .hour12))
      ac_rfl
    | year | minute | second | doy | hour12 | meridiem => rfl
  · cases field with
    | month => exact hplain _ _ _ _ _ _ hdoy
    | day => exact hplain _ _ _ _ _ _ hdoy
    | hour =>
      show (above .hour || above .hour12 || below .hour || below .hour12) =
        (above .hour || below .hour || (above .hour12 || below .hour12))
      ac_rfl
    | year | minute | second | doy | hour12 | meridiem => rfl

/-- **What is known below a level** comes from the atoms above it, whatever their order. -/
theorem learn_knownOf {parts segment : List Part} (h : halved segment = true) :
    learn (knownOf (reads parts)) segment = knownOf (reads (parts ++ segment)) := by
  have hgain : gain (knownOf (reads parts)) (captures segment) =
      fun field => knownOf (reads parts) field || reads segment field := by
    funext field
    rw [gain, captures_any]
  have happend : reads (parts ++ segment) = fun field => reads parts field || reads segment field := by
    funext field
    exact reads_append parts segment field
  rw [learn, hgain, happend, knownOf_or (reads_halved h)]

/-! ## 3. Times and their fields -/

/-- What a time's fields are: those that are not known have their least value. -/
structure Shows (fields : Fields) (clock : Int) : Prop where
  year : (dateOf clock).year = ((fields .year).getD 0 : Nat)
  month : (dateOf clock).month = (fields .month).getD 1
  day : (dateOf clock).day = (fields .day).getD 1
  hour : hourOf clock = (fields .hour).getD 0
  minute : minuteOf clock = (fields .minute).getD 0
  second : secondOf clock = (fields .second).getD 0
  micro : microOf clock = 0
  years : 1 ≤ (dateOf clock).year ∧ (dateOf clock).year ≤ 9999

variable {fields : Fields} {clock : Int}

/-- **A time shows the fields it is made of.** -/
theorem naive_fields (h : naive fields = some clock) : Shows fields clock := by
  unfold naive at h
  dsimp only at h
  split at h
  · rename_i hvalid
    obtain ⟨hlow, hhigh, hdate, hhour, hminute, hsecond⟩ := hvalid
    obtain rfl := Option.some.inj h
    generalize hh : (fields .hour).getD 0 = hour at *
    generalize hm : (fields .minute).getD 0 = minute at *
    generalize hs : (fields .second).getD 0 = second at *
    generalize hday : daysOf ⟨((fields .year).getD 0 : Nat), (fields .month).getD 1, (fields .day).getD 1⟩ = day at *
    have hdays : dateOf (day * DAY + ((hour * 60 + minute) * 60 + second : Nat) * 1000000) =
        ⟨((fields .year).getD 0 : Nat), (fields .month).getD 1, (fields .day).getD 1⟩ := by
      have hquotient : (day * DAY + ((hour * 60 + minute) * 60 + second : Nat) * 1000000) / DAY = day := by
        unfold DAY
        omega
      rw [dateOf, hquotient, ← hday, civil_daysOf hdate]
    have htime : timeOf (day * DAY + ((hour * 60 + minute) * 60 + second : Nat) * 1000000) =
        ((hour * 60 + minute) * 60 + second) * 1000000 := by
      unfold timeOf DAY
      omega
    constructor
    · rw [hdays]
    · rw [hdays]
    · rw [hdays]
    · rw [hourOf, htime, hh]
      omega
    · rw [minuteOf, htime, hm]
      omega
    · rw [secondOf, htime, hs]
      omega
    · rw [microOf, htime]
      omega
    · rw [hdays]
      exact ⟨hlow, hhigh⟩
  · cases h

/-- The calendar fields, 0 for what is not known. -/
def calendarKey (fields : Fields) : List Nat := CALENDAR.map fun field => (fields field).getD 0

theorem getD_compare {x y : Option Nat} (h : x.isSome = y.isSome) :
    (x.getD 1 < y.getD 1 → x.getD 0 < y.getD 0) ∧ (x.getD 1 = y.getD 1 → x.getD 0 = y.getD 0) := by
  cases x <;> cases y <;> simp_all

/-- **Times order as their fields do.** -/
theorem naive_lt_iff {fields fields' : Fields} {clock clock' : Int} (h : naive fields = some clock)
    (h' : naive fields' = some clock')
    (hsame : ∀ field ∈ CALENDAR, (fields field).isSome = (fields' field).isSome) :
    clock < clock' ↔ calendarKey fields < calendarKey fields' := by
  have hless : ∀ {fields fields' : Fields} {clock clock' : Int}, Shows fields clock → Shows fields' clock' →
      (∀ field ∈ CALENDAR, (fields field).isSome = (fields' field).isSome) → clock < clock' →
        calendarKey fields < calendarKey fields' := by
    intro fields fields' clock clock' hs hs' hsame hlt
    have hmonth := getD_compare (hsame .month (by decide))
    have hday := getD_compare (hsame .day (by decide))
    have hfields := fields_lt hlt
    rw [hs.year, hs'.year, hs.month, hs'.month, hs.day, hs'.day, hs.hour, hs'.hour, hs.minute, hs'.minute,
      hs.second, hs'.second, hs.micro, hs'.micro] at hfields
    simp only [calendarKey, CALENDAR, List.map_cons, List.map_nil, List.cons_lt_cons_iff, Nat.cast_lt,
      Nat.cast_inj, Nat.lt_irrefl, and_false, or_false] at hfields ⊢
    tauto
  have hs := naive_fields h
  have hs' := naive_fields h'
  refine ⟨hless hs hs' hsame, fun hlt => ?_⟩
  rcases lt_trichotomy clock clock' with hclock | rfl | hclock
  · exact hclock
  · have hmonth := (getD_compare (hsame .month (by decide))).2 (hs.month.symm.trans hs'.month)
    have hday := (getD_compare (hsame .day (by decide))).2 (hs.day.symm.trans hs'.day)
    have hyear := Nat.cast_inj.mp (hs.year.symm.trans hs'.year)
    have hkey : calendarKey fields = calendarKey fields' := by
      simp only [calendarKey, CALENDAR, List.map_cons, List.map_nil, hyear, hmonth, hday,
        ← hs.hour, ← hs'.hour, ← hs.minute, ← hs'.minute, ← hs.second, ← hs'.second]
    exact absurd (hkey ▸ hlt) (lt_irrefl _)
  · exact absurd (hlt.trans (hless hs' hs (fun field hfield => (hsame field hfield).symm) hclock)) (lt_irrefl _)

/-! ## 4. The fields of a time -/

/-- The fields of what the clocks show. -/
def stampOf (clock : Int) : Stamp
  | .year => (dateOf clock).year.toNat
  | .month => (dateOf clock).month
  | .day => (dateOf clock).day
  | .hour => hourOf clock
  | .minute => minuteOf clock
  | .second => secondOf clock
  | .doy => dayOfYear clock
  | .hour12 => hour12 (hourOf clock)
  | .meridiem => if hourOf clock < 12 then 1 else 2

theorem coherent_stamp (h : 1 ≤ (dateOf clock).year) : Coherent (stampOf clock) where
  half := by
    have hhour := hourOf_lt clock
    show 1 ≤ hour12 (hourOf clock) ∧ hour12 (hourOf clock) ≤ 12 ∧ hourOf clock =
      hour12 (hourOf clock) % 12 + 12 * ((if hourOf clock < 12 then 1 else 2) - 1)
    unfold hour12
    split_ifs <;> omega
  day _ := by
    have hyear : (((dateOf clock).year.toNat : Nat) : Int) = (dateOf clock).year := Int.toNat_of_nonneg (by omega)
    have hordinal := (ordinal_range (civil_valid (clock / DAY))).1
    have hdoy : ((dayOfYear clock : Nat) : Int) = (dateOf clock).ordinal :=
      Int.toNat_of_nonneg (by unfold dateOf; omega)
    have hday : daysOf ⟨(dateOf clock).year, 1, 1⟩ + ((dateOf clock).ordinal - 1) = clock / DAY := by
      have hsame : daysOf (dateOf clock) = clock / DAY := daysOf_civil _
      unfold Date.ordinal
      omega
    show civil (daysOf ⟨(((dateOf clock).year.toNat : Nat) : Int), 1, 1⟩ + (((dayOfYear clock : Nat) : Int) - 1)) =
      ⟨(((dateOf clock).year.toNat : Nat) : Int), (dateOf clock).month, (dateOf clock).day⟩
    rw [hyear, hdoy, hday]
    rfl

/-- The start of the calendar unit that a time is in. -/
def floorOf (unit : Field) (clock : Int) : Int :=
  match unit with
  | .year => daysOf ⟨(dateOf clock).year, 1, 1⟩ * DAY
  | .month => daysOf ⟨(dateOf clock).year, (dateOf clock).month, 1⟩ * DAY
  | .day => clock / DAY * DAY
  | .hour => clock / 3600000000 * 3600000000
  | .minute => clock / 60000000 * 60000000
  | .second => clock / 1000000 * 1000000
  | .doy | .hour12 | .meridiem => clock

theorem dateOf_day (n : Int) : dateOf (n * DAY) = civil n := by
  rw [dateOf, Int.mul_ediv_cancel _ (by decide)]

theorem lt_nextOf {unit : Field} {clock finish : Int} (h : nextOf unit (floorOf unit clock) = some finish) :
    floorOf unit clock ≤ clock ∧ clock < finish := by
  have hclock := instant_eq clock
  have htime := timeOf_lt clock
  have hvalid : (dateOf clock).Valid := civil_valid (clock / DAY)
  have hday : daysOf (dateOf clock) = clock / DAY := daysOf_civil _
  have hwithin : ∀ {t u : Int}, within t = some u → u = t := by
    intro t u ht
    unfold within at ht
    split at ht
    · exact (Option.some.inj ht).symm
    · cases ht
  cases unit with
  | year =>
    have hfirst : daysOf ⟨(dateOf clock).year, 1, 1⟩ ≤ daysOf (dateOf clock) := by
      have hordinal := (ordinal_range hvalid).1
      unfold Date.ordinal at hordinal
      omega
    have hnext : daysOf (dateOf clock) < daysOf ⟨(dateOf clock).year + 1, 1, 1⟩ := by
      refine daysOf_lt hvalid (Date.Valid.january _) (.inl ?_)
      have hmonth := hvalid.month
      unfold Date.index
      simp only
      omega
    unfold nextOf floorOf at h
    dsimp only at h
    rw [dateOf_day, civil_daysOf (Date.Valid.january _)] at h
    dsimp only at h
    rw [hwithin h, floorOf]
    unfold DAY at *
    omega
  | month =>
    have hindex : monthStart (dateOf clock).index = daysOf ⟨(dateOf clock).year, (dateOf clock).month, 1⟩ :=
      monthStart_eq _ hvalid.month
    obtain ⟨hlow, hhigh⟩ := monthStart_civil (clock / DAY)
    have hgap : ∀ index : Int, monthStart index + 28 ≤ monthStart (index + 1) ∧
        monthStart (index + 1) ≤ monthStart index + 31 := by
      intro index
      obtain ⟨year, month, hmonth, rfl⟩ := exists_month index
      have hrange := monthDays_range year month
      have hsucc := monthStart_succ year hmonth
      rw [monthStart_eq year hmonth, show (12 * year + month - 1 + 1 : Int) = 12 * year + month by omega, hsucc]
      omega
    have hlate : (civil (monthStart (dateOf clock).index + 32)).index = (dateOf clock).index + 1 := by
      have hone := hgap (dateOf clock).index
      have htwo := hgap ((dateOf clock).index + 1)
      exact index_of_mem (by omega) (by omega)
    unfold nextOf floorOf at h
    dsimp only at h
    obtain ⟨late, hbound, hfinish⟩ := Option.map_eq_some_iff.mp h
    have hdays : late = (monthStart (dateOf clock).index + 32) * DAY := by
      rw [hwithin hbound, ← hindex, Int.add_mul]
    have hvalid' := (civil_valid (monthStart (dateOf clock).index + 32)).month
    have hnext : daysOf ⟨(dateOf late).year, (dateOf late).month, 1⟩ = monthStart ((dateOf clock).index + 1) := by
      rw [hdays, dateOf_day, ← hlate]
      exact (monthStart_eq _ hvalid').symm
    rw [← hfinish, hnext, floorOf, ← hindex]
    unfold dateOf DAY at *
    omega
  | day =>
    rw [hwithin h, floorOf]
    unfold DAY at *
    omega
  | hour | minute | second =>
    rw [hwithin h, floorOf]
    omega
  | doy | hour12 | meridiem => cases h

/-- The fields that are known, from the year down to the depth, and none beyond. -/
structure Deep (fields : Fields) (depth : Nat) : Prop where
  known : ∀ field ∈ CALENDAR.take depth, (fields field).isSome = true
  unknown : ∀ field ∈ CALENDAR.drop depth, fields field = none

theorem deep_of (hrest : (CALENDAR.drop (depthOf fields)).any (fun field => (fields field).isSome) = false) :
    Deep fields (depthOf fields) := by
  refine ⟨fun field hfield => ?_, fun field hfield => ?_⟩
  · have htake : CALENDAR.takeWhile (fun field => (fields field).isSome) = CALENDAR.take (depthOf fields) :=
      List.prefix_iff_eq_take.mp (List.takeWhile_prefix _)
    rw [← htake] at hfield
    exact List.all_eq_true.mp (List.all_takeWhile ..) field hfield
  · rw [List.any_eq_false] at hrest
    exact Option.not_isSome_iff_eq_none.mp (hrest field hfield)

theorem depthOf_le (fields : Fields) : depthOf fields ≤ 6 :=
  (List.takeWhile_sublist _).length_le

theorem naive_of (date : Date) (hour minute second : Nat)
    (hdate : (⟨((fields .year).getD 0 : Nat), (fields .month).getD 1, (fields .day).getD 1⟩ : Date) = date)
    (hhour : (fields .hour).getD 0 = hour) (hminute : (fields .minute).getD 0 = minute)
    (hsecond : (fields .second).getD 0 = second) (hyears : 1 ≤ date.year ∧ date.year ≤ 9999)
    (hvalid : date.Valid) (hclock : hour < 24 ∧ minute < 60 ∧ second < 60) :
    naive fields = some (daysOf date * DAY + ((hour * 60 + minute) * 60 + second : Nat) * 1000000) := by
  subst hdate hhour hminute hsecond
  exact if_pos ⟨hyears.1, hyears.2, hvalid, hclock⟩

/-- **The fields of a time down to a unit** name the start of that unit. -/
theorem naive_stamp {depth : Nat} (hyears : 1 ≤ (dateOf clock).year ∧ (dateOf clock).year ≤ 9999)
    (hof : fields.Of (stampOf clock)) (hdepth : depth ≠ 0 ∧ depth ≤ 6) (hdeep : Deep fields depth) :
    naive fields = some (floorOf (unitAt depth) clock) := by
  obtain ⟨hknown, hunknown⟩ := hdeep
  have hvalid : (dateOf clock).Valid := civil_valid (clock / DAY)
  have hfirst : Date.Valid ⟨(dateOf clock).year, (dateOf clock).month, 1⟩ :=
    ⟨hvalid.month, le_rfl, hvalid.day.1.trans hvalid.day.2⟩
  have hday : daysOf (dateOf clock) = clock / DAY := daysOf_civil _
  have htime : (timeOf clock : Int) = clock % DAY := by
    unfold timeOf DAY
    omega
  obtain ⟨hhours, hminutes, hseconds, -⟩ := clock_range clock
  have hvalue : ∀ field default, field ∈ CALENDAR.take depth → (fields field).getD default = stampOf clock field := by
    intro field default hfield
    obtain ⟨value, hsome⟩ := Option.isSome_iff_exists.mp (hknown field hfield)
    rw [hsome, hof field value hsome]
    rfl
  have hdefault : ∀ field default, field ∈ CALENDAR.drop depth → (fields field).getD default = default := by
    intro field default hfield
    rw [hunknown field hfield]
    rfl
  have hyear : ((stampOf clock .year : Nat) : Int) = (dateOf clock).year := Int.toNat_of_nonneg (by omega)
  have hwhole : 3 ≤ depth → (⟨((fields .year).getD 0 : Nat), (fields .month).getD 1, (fields .day).getD 1⟩ : Date) =
      dateOf clock := by
    intro hdays
    have hmem : ∀ field ∈ CALENDAR.take 3, field ∈ CALENDAR.take depth := fun _ hfield =>
      (List.take_prefix_take_left hdays).subset hfield
    rw [hvalue .year _ (hmem _ (by decide)), hyear, hvalue .month _ (hmem _ (by decide)),
      hvalue .day _ (hmem _ (by decide))]
    rfl
  have hdepths : depth = 1 ∨ depth = 2 ∨ depth = 3 ∨ depth = 4 ∨ depth = 5 ∨ depth = 6 := by omega
  rcases hdepths with rfl | rfl | rfl | rfl | rfl | rfl
  · refine (naive_of ⟨(dateOf clock).year, 1, 1⟩ 0 0 0 ?_ (hdefault _ _ (by decide)) (hdefault _ _ (by decide))
      (hdefault _ _ (by decide)) hyears (.january _) (by decide)).trans (congrArg some ?_)
    · rw [hvalue .year _ (by decide), hyear, hdefault .month _ (by decide), hdefault .day _ (by decide)]
    · exact Int.add_zero _
  · refine (naive_of ⟨(dateOf clock).year, (dateOf clock).month, 1⟩ 0 0 0 ?_ (hdefault _ _ (by decide))
      (hdefault _ _ (by decide)) (hdefault _ _ (by decide)) hyears hfirst (by decide)).trans (congrArg some ?_)
    · rw [hvalue .year _ (by decide), hyear, hvalue .month _ (by decide), hdefault .day _ (by decide)]
      rfl
    · exact Int.add_zero _
  · refine (naive_of (dateOf clock) 0 0 0 (hwhole (by decide)) (hdefault _ _ (by decide)) (hdefault _ _ (by decide))
      (hdefault _ _ (by decide)) hyears hvalid (by decide)).trans (congrArg some ?_)
    rw [hday]
    exact Int.add_zero _
  · refine (naive_of (dateOf clock) (hourOf clock) 0 0 (hwhole (by decide)) (hvalue _ _ (by decide))
      (hdefault _ _ (by decide)) (hdefault _ _ (by decide)) hyears hvalid ⟨hhours, by decide, by decide⟩).trans (congrArg some ?_)
    rw [hday]
    show _ = clock / 3600000000 * 3600000000
    unfold hourOf DAY at *
    omega
  · refine (naive_of (dateOf clock) (hourOf clock) (minuteOf clock) 0 (hwhole (by decide)) (hvalue _ _ (by decide))
      (hvalue _ _ (by decide)) (hdefault _ _ (by decide)) hyears hvalid ⟨hhours, hminutes, by decide⟩).trans
      (congrArg some ?_)
    rw [hday]
    show _ = clock / 60000000 * 60000000
    unfold hourOf minuteOf DAY at *
    omega
  · refine (naive_of (dateOf clock) (hourOf clock) (minuteOf clock) (secondOf clock) (hwhole (by decide))
      (hvalue _ _ (by decide)) (hvalue _ _ (by decide)) (hvalue _ _ (by decide)) hyears hvalid ⟨hhours, hminutes, hseconds⟩).trans
      (congrArg some ?_)
    rw [hday]
    show _ = clock / 1000000 * 1000000
    unfold hourOf minuteOf secondOf DAY at *
    omega

/-- The fields name no calendar prefix. -/
def Gapped (fields : Fields) : Prop :=
  depthOf fields = 0 ∨ (CALENDAR.drop (depthOf fields)).any (fun field => (fields field).isSome) = true

theorem period_gapped {zone : Zone} (h : Gapped fields) : period zone fields = some .open :=
  if_pos h

theorem period_deep {zone : Zone} (h : ¬ Gapped fields) :
    period zone fields = (naive fields).bind fun start => (nextOf (unitAt (depthOf fields)) start).bind
      fun finish => (zone.localize start).bind fun after => (zone.localize finish).bind
        fun before => some (.span after before) := if_neg h

/-- **The period of a time's fields** is the unit the time is in, as the zone's clocks show it. -/
theorem period_stamp {zone : Zone} (hyears : 1 ≤ (dateOf clock).year ∧ (dateOf clock).year ≤ 9999)
    (hof : fields.Of (stampOf clock)) (h : ¬ Gapped fields) :
    period zone fields = (nextOf (unitAt (depthOf fields)) (floorOf (unitAt (depthOf fields)) clock)).bind
      fun finish => (zone.localize (floorOf (unitAt (depthOf fields)) clock)).bind
        fun after => (zone.localize finish).bind fun before => some (.span after before) := by
  obtain ⟨hdepth, hrest⟩ := not_or.mp h
  have hnaive := naive_stamp hyears hof ⟨hdepth, depthOf_le fields⟩ (deep_of (Bool.not_eq_true _ ▸ hrest))
  rw [period_deep h, hnaive, Option.bind_some]

theorem exists_nextOf (hyear : (dateOf clock).year ≤ 9998) {unit : Field} (hunit : unit ∈ CALENDAR) :
    ∃ finish, nextOf unit (floorOf unit clock) = some finish := by
  have hvalid : (dateOf clock).Valid := civil_valid (clock / DAY)
  have hmonth := hvalid.month
  have hday : daysOf (dateOf clock) = clock / DAY := daysOf_civil _
  have hlast : LAST = (daysOf ⟨9999, 1, 1⟩ + 365) * DAY := by decide
  have hbefore : ∀ {date : Date}, date.Valid → date.year ≤ 9998 → daysOf date < daysOf ⟨9999, 1, 1⟩ := by
    intro date hdate hle
    refine daysOf_lt hdate (.january _) (.inl ?_)
    have hrange := hdate.month
    unfold Date.index
    simp only
    omega
  have hclock := hbefore hvalid hyear
  have hwithin : ∀ {t : Int}, t < LAST → within t = some t := fun ht => if_pos ht
  rw [hday] at hclock
  simp only [CALENDAR, List.mem_cons, List.not_mem_nil, or_false] at hunit
  rcases hunit with rfl | rfl | rfl | rfl | rfl | rfl <;> unfold nextOf floorOf <;> dsimp only
  · rw [dateOf_day, civil_daysOf (.january _)]
    refine ⟨_, hwithin ?_⟩
    have hnext : daysOf ⟨(dateOf clock).year + 1, 1, 1⟩ ≤ daysOf ⟨9999, 1, 1⟩ := by
      rcases (show (dateOf clock).year + 1 ≤ 9999 by omega).lt_or_eq with hlt | heq
      · exact (hbefore (.january _) (by simp only; omega)).le
      · rw [heq]
    rw [hlast]
    unfold DAY
    simp only at *
    omega
  · have hfirst := @hbefore ⟨(dateOf clock).year, (dateOf clock).month, 1⟩
      ⟨hvalid.month, le_rfl, hvalid.day.1.trans hvalid.day.2⟩ hyear
    rw [hwithin]
    · exact ⟨_, rfl⟩
    · rw [hlast]
      unfold DAY
      omega
  all_goals
    refine ⟨_, hwithin ?_⟩
    rw [hlast]
    unfold DAY at *
    omega

end Ceres.Paths
