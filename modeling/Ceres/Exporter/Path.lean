/-
  File:      Ceres/Exporter/Path.lean
  Subject:   THE FILES OF AN EXPORTER'S PERIODS (`exporter.py`: `ExportPath.file`, `check`, `__probes`).

  A period's file lies in the folder of the mount's layout, under a name rendered at the period's start in
  UTC. `check` renders the files of a sample of starts and refuses a path for which two of them are one.

  * `ExportPath.file`, `ExportPath.check` -- the file of a start, and the check;
  * `file_ok` -- a file is the texts of the layout's and the name's parts;
  * `start_of_texts` -- a path that passed the check tells the start by the texts of its parts;
  * **`checked_path_injective_iff`** -- its files are the periods' own exactly if no two starts with different
    numbers of digits in one of its atoms share a file; `Delimited` -- so if every run of digits
    holds at most one such atom;
  * `digits_run_together` -- a path that passes the check and writes two periods to one file.
-/
import Ceres.Exporter.Tiling
import Ceres.Library.Dict
import Ceres.Paths.Layout

namespace Ceres.Exporter

open Ceres.Library Ceres.Database Ceres.Paths

/-! ## 1. Files -/

/-- An exporter's mount, whose zone is UTC: its layout and its names. -/
structure Mount where
  layout : Option PathLayout
  names : Paths.Values

structure ExportPath where
  template : PathTemplate
  period : ExporterPeriod
  /-- `{exporter}`, and `{connection}` when the filter pins one. -/
  values : Paths.Values

/-- `{**names, **values}`. -/
def ExportPath.merged (path : ExportPath) (mount : Mount) : Paths.Values :=
  fun name => (path.values name).or (mount.names name)

/-- `_EPOCH` of the exporters. -/
def EPOCH : Int := daysOf ⟨2000, 1, 1⟩ * DAY

/-- The file of a start, relative to the mount; that of all time sits at its root. -/
def ExportPath.file (path : ExportPath) (mount : Mount) : Option Int → Except PathError Text
  | none => renderParts (utc EPOCH) (path.merged mount) path.template.parts
  | some start => do
    let name ← renderParts (utc start) (path.merged mount) path.template.parts
    match mount.layout with
    | none => return name
    | some layout => do
      let folder ← renderParts (utc start) mount.names layout.parts
      return folder ++ '/' :: name

/-! ## 2. The check -/

/-- The starts the check renders. -/
def probes (period : ExporterPeriod) : List Int :=
  [0, 100, 400].flatMap fun years : Int =>
    let base := daysOf ⟨2000 + years, 1, 1⟩ * DAY
    if period = .hour then
      (List.range 48).map (fun hours : Nat => base + HOUR * hours) ++
        (List.range 367).map fun days : Nat => base + DAY * days
    else (periodsFrom period (base + DAY * 367) (DAY * 367).toNat base).map Prod.fst

inductive CheckError where
  /-- The layout splits finer than the period. -/
  | finer
  | render (error : PathError)
  /-- Two periods take one file. -/
  | collision (earlier start : Int) (rendered : Text)

/-- The loop over the probes, with the first start of each file it has seen. -/
def checkProbes (path : ExportPath) (mount : Mount) : List Int → Dict Text Int → Except CheckError Unit
  | [], _ => .ok ()
  | start :: rest, seen =>
    match path.file mount (some start) with
    | .error e => .error (.render e)
    | .ok rendered =>
      let earlier := (seen.get rendered).getD start
      if earlier ≠ start then .error (.collision earlier start rendered)
      else checkProbes path mount rest (if (seen.get rendered).isSome then seen else seen.set rendered start)

/-- The field a period is named after. -/
def ExporterPeriod.field : ExporterPeriod → Field
  | .hour => .hour
  | .day => .day
  | .month => .month
  | .all => .year

def ExportPath.check (path : ExportPath) (mount : Mount) : Except CheckError Unit :=
  if path.period = .all then .ok ()
  else if mount.layout.any fun layout => layout.splitsFinerThan path.period.field then .error .finer
  else checkProbes path mount (probes path.period) []

section Checks

variable {path : ExportPath} {mount : Mount}

theorem checkProbes_ok : ∀ {starts : List Int} {seen : Dict Text Int},
    checkProbes path mount starts seen = .ok () → (∀ p ∈ starts, ∃ file, path.file mount (some p) = .ok file ∧
        ∀ earlier, seen.get file = some earlier → earlier = p) ∧ ∀ p ∈ starts, ∀ q ∈ starts, ∀ file,
        path.file mount (some p) = .ok file → path.file mount (some q) = .ok file → p = q
  | [], _, _ => by simp
  | start :: rest, seen, h => by
    unfold checkProbes at h
    cases hfile : path.file mount (some start) with
    | error e =>
      rw [hfile] at h
      cases h
    | ok rendered =>
      rw [hfile] at h
      dsimp only at h
      split at h
      · cases h
      · rename_i hearlier
        have hearlier : (seen.get rendered).getD start = start := not_not.mp hearlier
        obtain ⟨hrest, hpairs⟩ := checkProbes_ok h
        have hseen : (if (seen.get rendered).isSome then seen else seen.set rendered start).get rendered =
            some start := by
          split
          · rename_i hsome
            obtain ⟨earlier, heq⟩ := Option.isSome_iff_exists.mp hsome
            rw [heq] at hearlier ⊢
            exact congrArg some hearlier
          · rw [Dict.get_set, if_pos rfl]
        have hkept : ∀ file earlier, seen.get file = some earlier →
            (if (seen.get rendered).isSome then seen else seen.set rendered start).get file = some earlier := by
          intro file earlier hget
          split
          · exact hget
          · rename_i hsome
            have hne : rendered ≠ file := fun heq => hsome (by rw [heq, hget]; rfl)
            rw [Dict.get_set, if_neg hne, hget]
        have hfirst : ∀ q ∈ rest, path.file mount (some q) = .ok rendered → start = q := by
          intro q hq hother
          obtain ⟨file, hok, hsame⟩ := hrest q hq
          rw [hother] at hok
          obtain rfl := Except.ok.inj hok
          exact hsame start hseen
        refine ⟨fun p hp => ?_, fun p hp q hq file hpfile hqfile => ?_⟩
        · rcases List.mem_cons.mp hp with rfl | hp
          · refine ⟨rendered, hfile, fun earlier hget => ?_⟩
            rw [hget] at hearlier
            exact hearlier
          · obtain ⟨file, hok, hsame⟩ := hrest p hp
            exact ⟨file, hok, fun earlier hget => hsame earlier (hkept file earlier hget)⟩
        · rcases List.mem_cons.mp hp with rfl | hprest <;> rcases List.mem_cons.mp hq with rfl | hqrest
          · rfl
          · rw [hfile] at hpfile
            obtain rfl := Except.ok.inj hpfile
            exact hfirst q hqrest hqfile
          · rw [hfile] at hqfile
            obtain rfl := Except.ok.inj hqfile
            exact (hfirst p hprest hpfile).symm
          · exact hpairs p hprest q hqrest file hpfile hqfile

theorem checkProbes_of : ∀ {starts : List Int} {seen : Dict Text Int},
    (∀ p ∈ starts, ∃ file, path.file mount (some p) = .ok file ∧
      ∀ earlier, seen.get file = some earlier → earlier = p) → (∀ p ∈ starts, ∀ q ∈ starts, ∀ file,
      path.file mount (some p) = .ok file → path.file mount (some q) = .ok file → p = q) →
    checkProbes path mount starts seen = .ok ()
  | [], _, _, _ => rfl
  | start :: rest, seen, hfiles, hpairs => by
    obtain ⟨rendered, hfile, hsame⟩ := hfiles start List.mem_cons_self
    have hearlier : (seen.get rendered).getD start = start := by
      cases hget : seen.get rendered with
      | none => rfl
      | some earlier => exact hsame earlier hget
    unfold checkProbes
    rw [hfile]
    dsimp only
    rw [if_neg (not_not.mpr hearlier)]
    refine checkProbes_of (fun p hp => ?_) fun p hp q hq file hpfile hqfile =>
      hpairs p (List.mem_cons_of_mem _ hp) q (List.mem_cons_of_mem _ hq) file hpfile hqfile
    obtain ⟨file, hok, hearlier⟩ := hfiles p (List.mem_cons_of_mem _ hp)
    refine ⟨file, hok, fun earlier hget => ?_⟩
    split at hget
    · exact hearlier earlier hget
    · rw [Dict.get_set] at hget
      split at hget
      · rename_i heq
        obtain rfl := Option.some.inj hget
        exact hpairs _ List.mem_cons_self p (List.mem_cons_of_mem _ hp) file (heq ▸ hfile) hok
      · exact hearlier earlier hget

/-- **A path that passed the check** gives each probe a file of its own. -/
theorem check_ok (hperiod : path.period ≠ .all) (h : path.check mount = .ok ()) :
    (∀ p ∈ probes path.period, ∃ file, path.file mount (some p) = .ok file) ∧
      ∀ p ∈ probes path.period, ∀ q ∈ probes path.period, ∀ file,
        path.file mount (some p) = .ok file → path.file mount (some q) = .ok file → p = q := by
  unfold ExportPath.check at h
  rw [if_neg hperiod] at h
  split at h
  · cases h
  · obtain ⟨hfiles, hpairs⟩ := checkProbes_ok h
    exact ⟨fun p hp => (hfiles p hp).imp fun file hfile => hfile.1, hpairs⟩

end Checks

/-! ## 3. The parts of a file -/

/-- A part with the value of its name put in. -/
def resolve (values : Paths.Values) : Part → Part
  | .atom (.name n) => .literal ((values n).getD [])
  | part => part

/-- The parts of the layout's folder, a separator and the parts of the name. -/
def ExportPath.parts (path : ExportPath) (mount : Mount) : List Part :=
  (mount.layout.elim [] fun layout => layout.parts.map (resolve mount.names) ++ [.literal ['/']]) ++
    path.template.parts.map (resolve (path.merged mount))

/-- What a start's part writes. -/
def write (start : Int) (part : Part) : Text := part.text (utc start) fun _ => none

theorem text_resolve (start : Int) (values : Paths.Values) (part : Part) :
    (resolve values part).text (utc start) (fun _ => none) = part.text (utc start) values := by
  unfold resolve
  split
  · rfl
  · rename_i hname
    cases part with
    | literal text => rfl
    | atom a =>
      cases a with
      | name n => exact absurd rfl (hname n)
      | symbol s => rfl
      | epoch unit => rfl

theorem textOf_resolve (start : Int) (values : Paths.Values) (parts : List Part) :
    textOf (utc start) (fun _ => none) (parts.map (resolve values)) = textOf (utc start) values parts := by
  unfold textOf
  rw [List.map_map]
  exact congrArg List.flatten (List.map_congr_left fun part _ => text_resolve start values part)

/-- **A file** is the texts of its parts. -/
theorem file_ok {path : ExportPath} {mount : Mount} {start : Int} {file : Text}
    (h : path.file mount (some start) = .ok file) :
    file = textOf (utc start) (fun _ => none) (path.parts mount) := by
  unfold ExportPath.parts
  rw [textOf_append, textOf_resolve]
  cases hname : renderParts (utc start) (path.merged mount) path.template.parts with
  | error e =>
    simp only [ExportPath.file, hname, bind, Except.bind] at h
    cases h
  | ok name =>
    rw [← render_ok hname]
    cases hlayout : mount.layout with
    | none =>
      simp only [ExportPath.file, hname, hlayout, bind, Except.bind] at h
      exact (Except.ok.inj h).symm
    | some layout =>
      cases hfolder : renderParts (utc start) mount.names layout.parts with
      | error e =>
        simp only [ExportPath.file, hname, hlayout, hfolder, bind, Except.bind] at h
        cases h
      | ok folder =>
        simp only [ExportPath.file, hname, hlayout, hfolder, bind, Except.bind] at h
        obtain rfl := Except.ok.inj h
        rw [Option.elim_some, textOf_append, textOf_resolve, ← render_ok hfolder]
        simp [textOf, Part.text]

/-! ## 4. What the sample makes sure of -/

@[simp] theorem clock_utc (t : Int) : (utc t).clock = t := by
  simp [utc, Moment.clock]

/-- Four probes that differ from the first in one field only: the year, the month, the day, the hour. -/
def YEARS : Int := daysOf ⟨2400, 1, 1⟩ * DAY

def APRIL : Int := EPOCH + DAY * 91

def WEEK : Int := EPOCH + DAY * 7

theorem epoch_mem {period : ExporterPeriod} (h : period ≠ .all) :
    EPOCH ∈ probes period ∧ YEARS ∈ probes period ∧ APRIL ∈ probes period := by
  cases period with
  | all => exact absurd rfl h
  | hour | day | month => decide +kernel

theorem week_mem {period : ExporterPeriod} (h : period = .hour ∨ period = .day) : WEEK ∈ probes period := by
  rcases h with rfl | rfl <;> decide

theorem hour_mem : EPOCH + HOUR ∈ probes .hour := by decide

variable {s : Symbol}

/-- 400 years are whole weeks, so only the whole year differs. -/
theorem render_years (h : s ≠ .yyyy) : s.render (utc EPOCH) = s.render (utc YEARS) := by
  cases s with
  | yyyy => exact absurd rfl h
  | S width => revert width; decide
  | _ => decide

/-- The first of January and of April 2000 are Saturdays. -/
theorem render_april (h : s ≠ .MM ∧ s ≠ .M ∧ s ≠ .MMM ∧ s ≠ .MMMM ∧ s ≠ .DDD) :
    s.render (utc EPOCH) = s.render (utc APRIL) := by
  cases s with
  | MM | M | MMM | MMMM | DDD => simp at h
  | S width => revert width; decide
  | _ => decide

theorem render_week (h : s ≠ .dd ∧ s ≠ .d ∧ s ≠ .DDD) : s.render (utc EPOCH) = s.render (utc WEEK) := by
  cases s with
  | dd | d | DDD => simp at h
  | S width => revert width; decide
  | _ => decide

theorem render_hour (h : s ≠ .HH ∧ s ≠ .H ∧ s ≠ .hh ∧ s ≠ .h) :
    s.render (utc EPOCH) = s.render (utc (EPOCH + HOUR)) := by
  cases s with
  | HH | H | hh | h => simp at h
  | S width => revert width; decide
  | _ => decide

section Sample

variable {path : ExportPath} {mount : Mount}

/-- Two probes differ in a symbol of the path, when it does not count the Unix time. -/
theorem exists_symbol (hperiod : path.period ≠ .all) (hcheck : path.check mount = .ok ())
    (hepoch : ∀ unit, Part.atom (.epoch unit) ∉ path.parts mount) {p q : Int} (hp : p ∈ probes path.period)
    (hq : q ∈ probes path.period) (hne : p ≠ q) :
    ∃ s, Part.atom (.symbol s) ∈ path.parts mount ∧ s.render (utc p) ≠ s.render (utc q) := by
  obtain ⟨hfiles, hpairs⟩ := check_ok hperiod hcheck
  obtain ⟨file, hfile⟩ := hfiles p hp
  obtain ⟨other, hother⟩ := hfiles q hq
  by_contra hsame
  push Not at hsame
  have hparts : ∀ part ∈ path.parts mount, part.text (utc p) (fun _ => none) = part.text (utc q) fun _ => none := by
    intro part hpart
    cases part with
    | literal text => rfl
    | atom a =>
      cases a with
      | symbol s => exact hsame s hpart
      | epoch unit => exact absurd hpart (hepoch unit)
      | name n => rfl
  have htext : file = other := by
    rw [file_ok hfile, file_ok hother]
    exact congrArg List.flatten (List.map_congr_left hparts)
  exact hne (hpairs p hp q hq file hfile (htext ▸ hother))

theorem symbol_mem_resolve {s : Symbol} {values : Paths.Values} {parts : List Part} :
    Part.atom (.symbol s) ∈ parts.map (resolve values) ↔ Part.atom (.symbol s) ∈ parts := by
  constructor
  · intro h
    obtain ⟨part, hpart, heq⟩ := List.mem_map.mp h
    unfold resolve at heq
    split at heq
    · cases heq
    · exact heq ▸ hpart
  · exact fun h => List.mem_map.mpr ⟨_, h, rfl⟩

theorem symbol_mem_parts {s : Symbol} : Part.atom (.symbol s) ∈ path.parts mount ↔
    Part.atom (.symbol s) ∈ path.template.parts ∨
      ∃ layout ∈ mount.layout, Part.atom (.symbol s) ∈ layout.parts := by
  unfold ExportPath.parts
  rw [List.mem_append, symbol_mem_resolve, or_comm]
  refine or_congr Iff.rfl ?_
  cases mount.layout with
  | none => simp
  | some layout => simp [symbol_mem_resolve]

/-- The constructors keep a 12-hour hour together with its half of the day. -/
theorem half_mem {s : Symbol} (hs : s = .hh ∨ s = .h) (h : Part.atom (.symbol s) ∈ path.parts mount) :
    Part.atom (.symbol .a) ∈ path.parts mount := by
  have hclock : ∀ parts : List Part, checkClock parts = true → Part.atom (.symbol s) ∈ parts →
      Part.atom (.symbol .a) ∈ parts := by
    intro parts hclock hmem
    unfold checkClock at hclock
    rcases hs with rfl | rfl <;> simp [hmem] at hclock <;> exact hclock.1.1
  rw [symbol_mem_parts] at h ⊢
  rcases h with htemplate | ⟨layout, hlayout, hmem⟩
  · exact .inl (hclock _ path.template.clock htemplate)
  · exact .inr ⟨layout, hlayout, hclock _ layout.clock hmem⟩

theorem date_ext {a b : Date} (hyear : a.year = b.year) (hmonth : a.month = b.month)
    (hday : a.day = b.day) : a = b := by
  cases a
  cases b
  exact Date.mk.injEq .. ▸ ⟨hyear, hmonth, hday⟩

theorem start_fields {period : ExporterPeriod} (h : period ≠ .all) {s : Int} (hs : IsStart period s) :
    s = daysOf (dateOf s) * DAY + hourOf s * HOUR ∧ (period ≠ .hour → hourOf s = 0) ∧
      (period = .month → (dateOf s).day = 1) := by
  have hdate : daysOf (dateOf s) = s / DAY := daysOf_civil (s / DAY)
  have htime : (timeOf s : Int) = s % DAY := by
    unfold timeOf DAY
    omega
  have hhour : (hourOf s : Int) = s % DAY / HOUR := by
    rw [← htime]
    unfold hourOf HOUR
    omega
  have hnat : (hourOf s : Int) = 0 → hourOf s = 0 := fun heq => by exact_mod_cast heq
  rw [hdate, hhour]
  cases period with
  | all => exact absurd rfl h
  | hour =>
    have hs : s / HOUR * HOUR = s := hs
    refine ⟨?_, fun hne => absurd rfl hne, fun heq => by cases heq⟩
    unfold HOUR DAY at *
    omega
  | day =>
    have hs : s / DAY * DAY = s := hs
    refine ⟨?_, fun _ => hnat ?_, fun heq => by cases heq⟩
    · unfold HOUR DAY at *
      omega
    · rw [hhour]
      unfold HOUR DAY at *
      omega
  | month =>
    have hs : daysOf { dateOf s with day := 1 } * DAY = s := hs
    have hday : (dateOf s).day = 1 := by
      have hvalid : ({ dateOf s with day := 1 } : Date).Valid := by
        have hmonth := (civil_valid (s / DAY)).month
        have hrange := monthDays_range (dateOf s).year (dateOf s).month
        exact ⟨hmonth, le_rfl, by show 1 ≤ monthDays (dateOf s).year (dateOf s).month; omega⟩
      have hsame := congrArg dateOf hs
      rw [dateOf_midnight, civil_daysOf hvalid] at hsame
      exact congrArg Date.day hsame.symm
    have hmidnight : s % DAY = 0 := by
      rw [← hs]
      exact Int.mul_emod_left _ _
    refine ⟨?_, fun _ => hnat ?_, fun _ => hday⟩
    · unfold HOUR DAY at *
      omega
    · rw [hhour, hmidnight]
      rfl

/-- The years a `datetime` has. -/
def Representable (s : Int) : Prop := 1 ≤ (dateOf s).year ∧ (dateOf s).year ≤ 9999

instance (s : Int) : Decidable (Representable s) := instDecidableAnd

instance (period : ExporterPeriod) (s : Int) : Decidable (IsStart period s) :=
  inferInstanceAs (Decidable (periodStart period s = s))

/-- **The texts tell the start.** -/
theorem start_of_texts (hperiod : path.period ≠ .all) (hcheck : path.check mount = .ok ()) {s t : Int}
    (hs : IsStart path.period s) (ht : IsStart path.period t) (hsyears : Representable s)
    (htyears : Representable t) (htexts : ∀ part ∈ path.parts mount, write s part = write t part) : s = t := by
  obtain ⟨hsfields, hshour, hsday⟩ := start_fields hperiod hs
  obtain ⟨htfields, hthour, htday⟩ := start_fields hperiod ht
  by_cases hepoch : ∃ unit, Part.atom (.epoch unit) ∈ path.parts mount
  · -- the Unix time of a start tells it alone
    obtain ⟨unit, hunit⟩ := hepoch
    have hwhole : ∀ {u : Int}, u = daysOf (dateOf u) * DAY + hourOf u * HOUR → u % 1000000 = 0 := by
      intro u hu
      unfold DAY HOUR at hu
      omega
    have hswhole : (utc s).instant % 1000000 = 0 := hwhole hsfields
    have htwhole : (utc t).instant % 1000000 = 0 := hwhole htfields
    exact instant_of_render hswhole htwhole (htexts _ hunit)
  · have hepoch : ∀ unit, Part.atom (.epoch unit) ∉ path.parts mount := not_exists.mp hepoch
    have hsymbol : ∀ {p q : Int}, p ∈ probes path.period → q ∈ probes path.period → p ≠ q →
        ∃ sy, Part.atom (.symbol sy) ∈ path.parts mount ∧ sy.render (utc p) ≠ sy.render (utc q) ∧
          sy.render (utc s) = sy.render (utc t) := by
      intro p q hp hq hne
      obtain ⟨sy, hmem, hdiff⟩ := exists_symbol hperiod hcheck hepoch hp hq hne
      exact ⟨sy, hmem, hdiff, htexts _ hmem⟩
    obtain ⟨hbase, hyears, hapril⟩ := epoch_mem hperiod
    have hyear : (dateOf s).year = (dateOf t).year := by
      obtain ⟨sy, -, hdiff, hsame⟩ := hsymbol hbase hyears (by decide)
      by_cases hsy : sy = .yyyy
      · subst hsy
        have hnat := year_of_render (by rw [clock_utc]; have := hsyears.2; omega)
          (by rw [clock_utc]; have := htyears.2; omega) hsame
        rw [clock_utc, clock_utc] at hnat
        have hslow := hsyears.1
        have htlow := htyears.1
        omega
      · exact absurd (render_years hsy) hdiff
    have hdate : dateOf s = dateOf t := by
      have hall : Symbol.DDD.render (utc s) = Symbol.DDD.render (utc t) → dateOf s = dateOf t := by
        intro hsame
        have hresult : dateOf (utc s).clock = dateOf (utc t).clock :=
          date_of_render (by rwa [clock_utc, clock_utc]) hsame
        rwa [clock_utc, clock_utc] at hresult
      obtain ⟨sy, -, hdiff, hsame⟩ := hsymbol hbase hapril (by decide)
      by_cases hordinal : sy = .DDD
      · exact hall (hordinal ▸ hsame)
      · have hmonth : (dateOf s).month = (dateOf t).month := by
          by_cases hsy : sy = .MM ∨ sy = .M ∨ sy = .MMM ∨ sy = .MMMM
          · have hresult := month_of_render hsy hsame
            rwa [clock_utc, clock_utc] at hresult
          · push Not at hsy
            exact absurd (render_april ⟨hsy.1, hsy.2.1, hsy.2.2.1, hsy.2.2.2, hordinal⟩) hdiff
        by_cases hmonthly : path.period = .month
        · have hday : (dateOf s).day = (dateOf t).day := (hsday hmonthly).trans (htday hmonthly).symm
          exact date_ext hyear hmonth hday
        · have hsweep : path.period = .hour ∨ path.period = .day := by
            cases hcase : path.period with
            | hour => exact .inl rfl
            | day => exact .inr rfl
            | month => exact absurd hcase hmonthly
            | all => exact absurd hcase hperiod
          obtain ⟨sy, -, hdiff, hsame⟩ := hsymbol hbase (week_mem hsweep) (by decide)
          by_cases hordinal : sy = .DDD
          · exact hall (hordinal ▸ hsame)
          · by_cases hsy : sy = .dd ∨ sy = .d
            · have hday := day_of_render hsy hsame
              rw [clock_utc, clock_utc] at hday
              exact date_ext hyear hmonth hday
            · push Not at hsy
              exact absurd (render_week ⟨hsy.1, hsy.2, hordinal⟩) hdiff
    have hhour : hourOf s = hourOf t := by
      by_cases hhourly : path.period = .hour
      · obtain ⟨sy, hmem, hdiff, hsame⟩ := hsymbol hbase (hhourly ▸ hour_mem) (by decide)
        by_cases hsy : sy = .HH ∨ sy = .H
        · have hresult := hour_of_render hsy hsame
          rwa [clock_utc, clock_utc] at hresult
        · by_cases htwelve : sy = .hh ∨ sy = .h
          · have hresult := hour_of_render12 htwelve hsame (htexts _ (half_mem htwelve hmem))
            rwa [clock_utc, clock_utc] at hresult
          · push Not at hsy htwelve
            exact absurd (render_hour ⟨hsy.1, hsy.2, htwelve.1, htwelve.2⟩) hdiff
      · exact (hshour hhourly).trans (hthour hhourly).symm
    rw [hsfields, htfields, hdate, hhour]

end Sample

/-! ## 5. Numbers of several widths -/

/-- The part writes a number without leading zeros. -/
def number : Part → Bool
  | .atom (.symbol s) => s.Variable
  | .atom (.epoch _) => true
  | _ => false

/-- The digits a symbol writes always. -/
def symbolDigits : Symbol → Option Nat
  | .yyyy => some 4
  | .DDD => some 3
  | .yy | .MM | .dd | .HH | .hh | .mm | .ss => some 2
  | .S width => some (width + 1)
  | _ => none

/-- How many digits the parts begin with, where that is the same at every start. -/
def lead : List Part → Option Nat
  | [] => some 0
  | .literal text :: rest =>
    if text.all Char.isDigit then (lead rest).map (text.length + ·)
    else some (text.takeWhile Char.isDigit).length
  | .atom (.name _) :: rest => lead rest
  | .atom (.epoch _) :: _ => none
  | .atom (.symbol s) :: rest =>
    match symbolDigits s with
    | some width => (lead rest).map (width + ·)
    | none => if s.Variable then none else some 0

/-- Behind each number there are as many digits at every start. -/
def Delimited : List Part → Bool
  | [] => true
  | part :: rest => (!number part || (lead rest).isSome) && Delimited rest

theorem fixed_digits : ∀ (width n : Nat), ∀ c ∈ fixed width n, c.isDigit = true
  | 0, _, c, h => absurd h List.not_mem_nil
  | width + 1, n, c, h => by
    rcases List.mem_append.mp h with hold | hnew
    · exact fixed_digits width (n / 10) c hold
    · rw [List.mem_singleton.mp hnew]
      exact isDigit_digit n

theorem symbolDigits_spec {width : Nat} (h : symbolDigits s = some width) (when : Moment) :
    (s.render when).length = width ∧ ∀ c ∈ s.render when, c.isDigit = true := by
  cases s with
  | M | MMM | MMMM | d | H | h | a | EEE | EEEE | Z | XX => cases h
  | S digits =>
    obtain rfl := Option.some.inj h
    have hlt := digits.isLt
    refine ⟨?_, fun c hc => fixed_digits _ _ c (List.mem_of_mem_take hc)⟩
    simp only [Symbol.render, List.length_take, length_fixed]
    omega
  | yyyy | yy | MM | dd | DDD | HH | hh | mm | ss =>
    obtain rfl := Option.some.inj h
    exact ⟨length_fixed _ _, fixed_digits _ _⟩

theorem names_head : ∀ name ∈ MONTHS ++ WEEKDAYS, ∃ c, name.head? = some c ∧ c.isDigit = false := by
  have hall : (MONTHS ++ WEEKDAYS).all (fun name => name.head?.any fun c => !c.isDigit) = true := by
    decide
  intro name hname
  have hhead := List.all_eq_true.mp hall name hname
  cases hcase : name.head? with
  | none => rw [hcase] at hhead; cases hhead
  | some c =>
    rw [hcase] at hhead
    exact ⟨c, rfl, by simpa using hhead⟩

theorem symbol_head (hdigits : symbolDigits s = none) (hvariable : s.Variable = false)
    (start : Int) : ∃ c rest, s.render (utc start) = c :: rest ∧ c.isDigit = false := by
  have hname : ∀ name ∈ MONTHS ++ WEEKDAYS, ∃ c rest, name = c :: rest ∧ c.isDigit = false := by
    intro name hmem
    obtain ⟨c, hhead, hc⟩ := names_head name hmem
    obtain ⟨rest, hrest⟩ := List.head?_eq_some_iff.mp hhead
    exact ⟨c, rest, hrest, hc⟩
  have htake : ∀ name ∈ MONTHS ++ WEEKDAYS, ∃ c rest, name.take 3 = c :: rest ∧ c.isDigit = false := by
    intro name hmem
    obtain ⟨c, rest, rfl, hc⟩ := hname name hmem
    exact ⟨c, rest.take 2, rfl, hc⟩
  cases s with
  | yyyy | yy | MM | dd | DDD | HH | hh | mm | ss | S width => cases hdigits
  | M | d | H | h => cases hvariable
  | MMMM => exact hname _ (List.mem_append_left _ (month_mem _))
  | EEEE => exact hname _ (List.mem_append_right _ (weekday_mem _))
  | MMM => exact htake _ (List.mem_append_left _ (month_mem _))
  | EEE => exact htake _ (List.mem_append_right _ (weekday_mem _))
  | a =>
    simp only [Symbol.render]
    split
    · exact ⟨'A', ['M'], rfl, by decide⟩
    · exact ⟨'P', ['M'], rfl, by decide⟩
  | Z => exact ⟨'+', _, rfl, by decide⟩
  | XX => exact ⟨'Z', [], rfl, by decide⟩

theorem takeWhile_digits {a b : Text} (h : ∀ c ∈ a, c.isDigit = true) :
    ((a ++ b).takeWhile Char.isDigit).length = a.length + (b.takeWhile Char.isDigit).length := by
  rw [List.takeWhile_append_of_pos h, List.length_append]

theorem takeWhile_stops {a b : Text} (h : a.all Char.isDigit = false) :
    (a ++ b).takeWhile Char.isDigit = a.takeWhile Char.isDigit := by
  induction a with
  | nil => cases h
  | cons c a ih =>
    rw [List.cons_append, List.takeWhile_cons, List.takeWhile_cons]
    by_cases hc : c.isDigit = true
    · rw [List.all_cons, hc, Bool.true_and] at h
      rw [if_pos hc, if_pos hc, ih h]
    · rw [if_neg hc, if_neg hc]

theorem lead_spec (start : Int) : ∀ {parts : List Part} {width : Nat}, lead parts = some width →
    ((textOf (utc start) (fun _ => none) parts).takeWhile Char.isDigit).length = width
  | [], width, h => Option.some.inj h
  | .literal text :: rest, width, h => by
    rw [textOf_cons]
    unfold lead at h
    split at h
    · rename_i hdigits
      obtain ⟨others, hrest, rfl⟩ := Option.map_eq_some_iff.mp h
      have htext := takeWhile_digits (b := textOf (utc start) (fun _ => none) rest) (List.all_eq_true.mp hdigits)
      rw [lead_spec start hrest] at htext
      exact htext
    · rename_i hdigits
      obtain rfl := Option.some.inj h
      exact congrArg List.length (takeWhile_stops (Bool.eq_false_iff.mpr hdigits))
  | .atom (.name _) :: rest, width, h => show _ from @lead_spec start rest width h
  | .atom (.epoch _) :: _, width, h => by cases h
  | .atom (.symbol s) :: rest, width, h => by
    rw [textOf_cons]
    unfold lead at h
    cases hdigits : symbolDigits s with
    | some digits =>
      rw [hdigits] at h
      obtain ⟨others, hrest, rfl⟩ := Option.map_eq_some_iff.mp h
      obtain ⟨hlength, hall⟩ := symbolDigits_spec hdigits (utc start)
      have htext := takeWhile_digits (b := textOf (utc start) (fun _ => none) rest) hall
      rw [lead_spec start hrest, hlength] at htext
      exact htext
    | none =>
      rw [hdigits] at h
      dsimp only at h
      split at h
      · cases h
      · rename_i hvariable
        obtain rfl := Option.some.inj h
        obtain ⟨c, others, hrender, hc⟩ := symbol_head hdigits (by simpa using hvariable) start
        have htext : Part.text (utc start) (fun _ => none) (.atom (.symbol s)) = c :: others := hrender
        rw [htext, List.cons_append, List.takeWhile_cons, if_neg (by simp [hc])]
        rfl

theorem number_text {part : Part} (h : number part = true) (start : Int) :
    ∃ c digits, write start part = c :: digits ∧ ∀ d ∈ digits, d.isDigit = true := by
  have hnumeral : ∀ n, ∃ c digits, numeralOf n = c :: digits ∧ ∀ d ∈ digits, d.isDigit = true := by
    intro n
    obtain ⟨c, digits, heq⟩ := List.exists_cons_of_ne_nil (numeralOf_ne_nil n)
    exact ⟨c, digits, heq, fun d hd => isDigit_numeralOf (heq ▸ List.mem_cons_of_mem c hd)⟩
  have hsigned : ∀ n : Int, ∃ c digits, signedText n = c :: digits ∧ ∀ d ∈ digits, d.isDigit = true := by
    intro n
    unfold signedText
    split
    · exact ⟨'-', _, rfl, fun d hd => isDigit_numeralOf hd⟩
    · exact hnumeral _
  cases part with
  | literal text => cases h
  | atom a =>
    cases a with
    | name n => cases h
    | epoch unit => exact hsigned _
    | symbol s =>
      cases s with
      | M | d | H | h => exact hnumeral _
      | yyyy | yy | MM | MMM | MMMM | dd | DDD | HH | hh | a | mm | ss | S | EEE | EEEE | Z | XX => cases h

theorem write_settles {s t : Int} {part : Part}
    (h : number part = true → (write s part).length = (write t part).length) :
    Settles (write s part) (write t part) := by
  by_cases hnumber : number part = true
  · exact settles_of_length (h hnumber)
  · cases part with
    | literal text => exact settles_of_length rfl
    | atom a =>
      cases a with
      | name n => exact settles_of_length rfl
      | epoch unit => exact absurd rfl hnumber
      | symbol sy => exact Symbol.settles (Bool.eq_false_iff.mpr hnumber) rfl

/-- **Delimited numbers settle**: the digits in front of the first other character are the number's and
    those that are always behind it. -/
theorem texts_of_delimited {s t : Int} : ∀ {parts : List Part}, Delimited parts = true →
    textOf (utc s) (fun _ => none) parts = textOf (utc t) (fun _ => none) parts →
      ∀ part ∈ parts, write s part = write t part
  | [], _, _ => by simp
  | part :: rest, hdelimited, heq => by
    unfold Delimited at hdelimited
    rw [Bool.and_eq_true] at hdelimited
    have hcons : write s part ++ textOf (utc s) (fun _ => none) rest =
        write t part ++ textOf (utc t) (fun _ => none) rest := heq
    have hsettles : Settles (write s part) (write t part) := by
      refine write_settles fun hnumber => ?_
      rw [hnumber, Bool.not_true, Bool.false_or] at hdelimited
      obtain ⟨width, hwidth⟩ := Option.isSome_iff_exists.mp hdelimited.1
      obtain ⟨c, digits, hs, hsdigits⟩ := number_text hnumber s
      obtain ⟨c', digits', ht, htdigits⟩ := number_text hnumber t
      rw [hs, ht, List.cons_append, List.cons_append] at hcons
      have hruns := congrArg (fun text => (text.takeWhile Char.isDigit).length) (List.cons.inj hcons).2
      rw [takeWhile_digits hsdigits, takeWhile_digits htdigits, lead_spec s hwidth, lead_spec t hwidth] at hruns
      rw [hs, ht, List.length_cons, List.length_cons]
      omega
    have hpart := hsettles _ _ hcons
    rw [hpart, List.append_cancel_left_eq] at hcons
    intro other hother
    rcases List.mem_cons.mp hother with rfl | hmem
    · exact hpart
    · exact texts_of_delimited hdelimited.2 hcons other hmem

/-! ## 6. Paths that pass the check -/

section Claim

variable (path : ExportPath) (mount : Mount)

/-- The starts of two periods in the years there are. -/
structure PeriodStarts (s t : Int) : Prop where
  left : IsStart path.period s ∧ Representable s
  right : IsStart path.period t ∧ Representable t

/-- A path that passes the check gives each period a file of its own. -/
def CheckedInjective : Prop :=
  path.check mount = .ok () → ∀ s t, PeriodStarts path s t → s ≠ t → ∀ file other,
    path.file mount (some s) = .ok file → path.file mount (some t) = .ok other → file ≠ other

/-- Two starts at which a number of the path has different widths have different files. -/
def WidthsTold : Prop :=
  path.check mount = .ok () → ∀ s t, PeriodStarts path s t →
    (∃ part ∈ path.parts mount, number part = true ∧ (write s part).length ≠ (write t part).length) →
      ∀ file other, path.file mount (some s) = .ok file → path.file mount (some t) = .ok other → file ≠ other

/-- **When a checked path is injective**, for the periods hour, day and month, every template, layout and
    names. -/
theorem checked_path_injective_iff (hperiod : path.period ≠ .all) :
    (CheckedInjective path mount ↔ WidthsTold path mount) ∧
      (Delimited (path.parts mount) = true → CheckedInjective path mount) := by
  have htexts : path.check mount = .ok () → ∀ s t, PeriodStarts path s t → s ≠ t →
      ¬ ∀ part ∈ path.parts mount, write s part = write t part := fun hcheck s t h hne heq =>
    hne (start_of_texts hperiod hcheck h.left.1 h.right.1 h.left.2 h.right.2 heq)
  refine ⟨⟨fun h hcheck s t hstarts hwidths => ?_, fun h hcheck s t hstarts hne file other hfile hother heq => ?_⟩,
    fun hdelimited hcheck s t hstarts hne file other hfile hother heq => ?_⟩
  · obtain ⟨part, -, -, hlength⟩ := hwidths
    exact h hcheck s t hstarts fun heq => hlength (by rw [heq])
  · by_cases hwidths : ∃ part ∈ path.parts mount,
        number part = true ∧ (write s part).length ≠ (write t part).length
    · exact h hcheck s t hstarts hwidths file other hfile hother heq
    · push Not at hwidths
      refine htexts hcheck s t hstarts hne (textOf_settles (fun part hpart => ?_) ?_)
      · exact write_settles fun hnumber => hwidths part hpart hnumber
      · rw [← file_ok hfile, ← file_ok hother, heq]
  · refine htexts hcheck s t hstarts hne (texts_of_delimited hdelimited ?_)
    rw [← file_ok hfile, ← file_ok hother, heq]

end Claim

/-- `{exporter}_{yyyy}{MM}T{H}{d}.csv`. -/
def RUN_TOGETHER : PathTemplate where
  parts := [.atom (.name "exporter"), .literal ['_'], .atom (.symbol .yyyy), .atom (.symbol .MM), .literal ['T'],
    .atom (.symbol .H), .atom (.symbol .d), .literal ".csv".toList]
  relative text rest h := by cases h
  clock := by decide
  probe := by decide

def hourly : ExportPath := ⟨RUN_TOGETHER, .hour, fun _ => some ['e']⟩

def root : Mount := ⟨none, fun _ => none⟩

/-- What the two unpadded numbers of the path write. -/
def run (s : Int) : Text := numeralOf (hourOf s) ++ numeralOf (dateOf s).day

/-- A name of letters, digits and `_` and its extension pass the segment checks. -/
theorem checkSegment_plain {name : Text} (hplain : ∀ c ∈ name, c.isDigit = true ∨ c ∈ ['e', '_', 'T'])
    (hbar : '_' ∈ name) : checkSegment (name ++ ".csv".toList) = .ok () := by
  have hsafe : ∀ c ∈ name ++ ".csv".toList, ¬ (c ∈ FORBIDDEN ∨ c.toNat < 32) := by
    have hdigits : ∀ c : Char, c.isDigit = true → ¬ (c ∈ FORBIDDEN ∨ c.toNat < 32) := by
      intro c hc
      have hrange : 48 ≤ c.toNat ∧ c.toNat ≤ 57 := by
        simpa [Char.isDigit, UInt32.le_iff_toNat_le] using hc
      rintro (hmem | hlow)
      · simp only [FORBIDDEN, List.mem_cons, List.not_mem_nil, or_false] at hmem
        rcases hmem with rfl | rfl | rfl | rfl | rfl | rfl | rfl | rfl <;> exact absurd hc (by decide)
      · omega
    have hothers : ['e', '_', 'T', '.', 'c', 's', 'v'].all
        (fun c => decide ¬ (c ∈ FORBIDDEN ∨ c.toNat < 32)) = true := by decide
    intro c hc
    rcases List.mem_append.mp hc with hname | hextension
    · rcases hplain c hname with hdigit | hmem
      · exact hdigits c hdigit
      · exact of_decide_eq_true (List.all_eq_true.mp hothers c (List.mem_append_left ['.', 'c', 's', 'v'] hmem))
    · have hmem : c ∈ ['.', 'c', 's', 'v'] := hextension
      exact of_decide_eq_true (List.all_eq_true.mp hothers c (List.mem_append_right ['e', '_', 'T'] hmem))
  have hstem : (name ++ ".csv".toList).takeWhile (fun c => decide (c ≠ '.')) = name := by
    have hname : ∀ c ∈ name, decide (c ≠ '.') = true := by
      intro c hc
      rcases hplain c hc with hdigit | hmem
      · rw [decide_eq_true_eq]
        rintro rfl
        exact absurd hdigit (by decide)
      · simp only [List.mem_cons, List.not_mem_nil, or_false] at hmem
        rcases hmem with rfl | rfl | rfl <;> decide
    rw [List.takeWhile_append_of_pos hname]
    exact List.append_nil name
  have hreserved : name.map Char.toUpper ∉ RESERVED := by
    have hall : RESERVED.all (fun text => decide ('_' ∉ text)) = true := by decide
    intro hmem
    exact of_decide_eq_true (List.all_eq_true.mp hall _ hmem) (List.mem_map.mpr ⟨'_', hbar, by decide⟩)
  have hlast : (name ++ ".csv".toList).getLast? = some 'v' := by
    rw [List.getLast?_append_of_ne_nil _ (by decide)]
    rfl
  have hlength : 2 ≤ (name ++ ".csv".toList).length - 1 := by
    rw [List.length_append]
    exact Nat.le_sub_of_add_le (Nat.le_trans (by decide) (Nat.le_add_left 4 name.length))
  unfold checkSegment
  rw [if_neg, if_neg, if_neg]
  · rw [hstem, hlast]
    simp [hreserved]
  · rw [List.any_eq_true]
    rintro ⟨c, hc, hbad⟩
    exact hsafe c hc (of_decide_eq_true hbad)
  · rintro (heq | heq | heq) <;> rw [heq] at hlength <;> exact absurd hlength (by decide)

/-- The name of a start, without its extension. -/
def hourlyName (s : Int) : Text :=
  ['e', '_'] ++ (fixed 4 (dateOf s).year.toNat ++ (fixed 2 (dateOf s).month ++ ('T' :: run s)))

theorem hourlyName_plain (s : Int) : ∀ c ∈ hourlyName s, c.isDigit = true ∨ c ∈ ['e', '_', 'T'] := by
  intro c hc
  simp only [hourlyName, run, List.mem_append, List.mem_cons, List.not_mem_nil, or_false] at hc
  rcases hc with (rfl | rfl) | hyear | hmonth | rfl | hhour | hday
  · exact .inr (by decide)
  · exact .inr (by decide)
  · exact .inl (fixed_digits _ _ c hyear)
  · exact .inl (fixed_digits _ _ c hmonth)
  · exact .inr (by decide)
  · exact .inl (isDigit_numeralOf hhour)
  · exact .inl (isDigit_numeralOf hday)

theorem hourly_file (s : Int) : hourly.file root (some s) = .ok (hourlyName s ++ ".csv".toList) := by
  have hplain : ∀ c : Char, c.isDigit = true ∨ c ∈ ['e', '_', 'T'] → c ≠ '/' ∧ c ≠ '\\' := by
    rintro c (hdigit | hmem)
    · exact ⟨fun heq => absurd (heq ▸ hdigit) (by decide), fun heq => absurd (heq ▸ hdigit) (by decide)⟩
    · simp only [List.mem_cons, List.not_mem_nil, or_false] at hmem
      rcases hmem with rfl | rfl | rfl <;> decide
  have hpieces : renderPieces (utc s) (hourly.merged root) RUN_TOGETHER.parts =
      .ok (hourlyName s ++ ".csv".toList) := by
    rw [renderPieces_of]
    · simp [textOf, RUN_TOGETHER, Part.text, Atom.text, Symbol.render, hourly, ExportPath.merged, hourlyName, run]
    · intro a ha
      have hdigits : ∀ text : Text, (∀ c ∈ text, c.isDigit = true) → '/' ∉ text ∧ '\\' ∉ text :=
        fun text htext => ⟨fun hmem => (hplain _ (.inl (htext _ hmem))).1 rfl,
          fun hmem => (hplain _ (.inl (htext _ hmem))).2 rfl⟩
      simp only [RUN_TOGETHER, List.mem_cons, List.not_mem_nil, or_false, Part.atom.injEq, reduceCtorEq,
        false_or] at ha
      rcases ha with rfl | rfl | rfl | rfl | rfl
      · exact ⟨['e'], rfl, by decide, by decide⟩
      · exact ⟨_, rfl, hdigits _ (fixed_digits _ _)⟩
      · exact ⟨_, rfl, hdigits _ (fixed_digits _ _)⟩
      · exact ⟨_, rfl, hdigits _ fun c => isDigit_numeralOf⟩
      · exact ⟨_, rfl, hdigits _ fun c => isDigit_numeralOf⟩
  have hslash : '/' ∉ hourlyName s ++ ".csv".toList := by
    intro hmem
    rcases List.mem_append.mp hmem with hname | hextension
    · exact (hplain _ (hourlyName_plain s _ hname)).1 rfl
    · exact absurd hextension (by decide)
  have hrender : renderParts (utc s) (hourly.merged root) RUN_TOGETHER.parts =
      .ok (hourlyName s ++ ".csv".toList) := by
    unfold renderParts
    rw [hpieces]
    dsimp only [bind, Except.bind]
    rw [List.splitOn_eq_singleton hslash]
    unfold checkSegments
    rw [checkSegment_plain (hourlyName_plain s) (by simp [hourlyName])]
    rfl
  simp only [ExportPath.file, hourly, root, bind, Except.bind] at hrender ⊢
  rw [hrender]
  rfl

theorem year_mono {n m : Int} (h : n ≤ m) : (civil n).year ≤ (civil m).year := by
  rcases h.lt_or_eq with hlt | rfl
  · rcases civil_lt hlt with hyear | ⟨hyear, -⟩
    · exact hyear.le
    · exact hyear.le
  · exact le_rfl

theorem bases_days : ∀ years ∈ ([0, 100, 400] : List Int), 10957 ≤ daysOf ⟨2000 + years, 1, 1⟩ ∧
    daysOf ⟨2000 + years, 1, 1⟩ ≤ 157054 ∧ (civil (daysOf ⟨2000 + years, 1, 1⟩)).day ≤ 2 ∧
      (civil (daysOf ⟨2000 + years, 1, 1⟩ + 1)).day ≤ 2 := by decide

/-- Each probe is of hour 0 or of the first or second day of a month. -/
theorem probes_sweep : ∀ p ∈ probes .hour, (hourOf p = 0 ∨ (dateOf p).day ≤ 2) ∧ Representable p ∧
    IsStart .hour p := by
  have hyears : ∀ p : Int, 10957 ≤ p / DAY → p / DAY ≤ 158000 → Representable p := by
    intro p hlow hhigh
    have hfirst : (civil 10957).year = 2000 := by decide
    have hlast : (civil 158000).year = 2402 := by decide
    have hle := year_mono hlow
    have hge := year_mono hhigh
    unfold Representable dateOf
    omega
  intro p hp
  obtain ⟨years, hbase, hp⟩ := List.mem_flatMap.mp hp
  obtain ⟨hlow, hhigh, hday, hnext⟩ := bases_days years hbase
  dsimp only at hp
  rw [if_pos rfl] at hp
  rcases List.mem_append.mp hp with hhours | hdays
  · obtain ⟨hour, hlt, rfl⟩ := List.mem_map.mp hhours
    have hlt := List.mem_range.mp hlt
    have hdiv : ∀ base : Int, (base * DAY + HOUR * hour) / DAY = base ∨
        (base * DAY + HOUR * hour) / DAY = base + 1 := by
      intro base
      unfold DAY HOUR
      omega
    refine ⟨.inr ?_, ?_, ?_⟩
    · unfold dateOf
      rcases hdiv (daysOf ⟨2000 + years, 1, 1⟩) with heq | heq <;> rw [heq] <;> assumption
    · rcases hdiv (daysOf ⟨2000 + years, 1, 1⟩) with heq | heq
      · exact hyears _ (by omega) (by omega)
      · exact hyears _ (by omega) (by omega)
    · show _ / HOUR * HOUR = _
      unfold DAY HOUR
      omega
  · obtain ⟨day, hlt, rfl⟩ := List.mem_map.mp hdays
    have hlt := List.mem_range.mp hlt
    have hdiv : (daysOf ⟨2000 + years, 1, 1⟩ * DAY + DAY * day) / DAY = daysOf ⟨2000 + years, 1, 1⟩ + day := by
      unfold DAY
      omega
    refine ⟨.inl ?_, hyears _ (by omega) (by omega), ?_⟩
    · unfold hourOf timeOf DAY
      omega
    · show _ / HOUR * HOUR = _
      unfold DAY HOUR
      omega

/-- An hour and a day of such starts are told by what they write together. -/
theorem run_apart {hour day hour' day' : Nat} (h : hour = 0 ∨ day ≤ 2) (h' : hour' = 0 ∨ day' ≤ 2)
    (hlt : hour < 24) (hlt' : hour' < 24)
    (heq : numeralOf hour ++ numeralOf day = numeralOf hour' ++ numeralOf day') : hour = hour' ∧ day = day' := by
  have hzero : ∀ n < 24, (numeralOf n).head? = some '0' → n = 0 := by decide
  have hsingle : ∀ n ≤ 2, (numeralOf n).length = 1 := by decide
  have hhead : ∀ n day, (numeralOf n ++ numeralOf day).head? = (numeralOf n).head? := by
    intro n day
    rw [List.head?_append_of_ne_nil _ (numeralOf_ne_nil n)]
  have hsame : hour = 0 ∨ hour' = 0 → hour = hour' := by
    have hheads := congrArg List.head? heq
    rw [hhead, hhead] at hheads
    rintro (rfl | rfl)
    · exact (hzero hour' hlt' hheads.symm).symm
    · exact hzero hour hlt hheads
  by_cases hany : hour = 0 ∨ hour' = 0
  · obtain rfl := hsame hany
    exact ⟨rfl, numeralOf_inj (List.append_cancel_left heq)⟩
  · have hlength : (numeralOf day).length = (numeralOf day').length := by
      rw [hsingle day (h.resolve_left fun hz => hany (.inl hz)),
        hsingle day' (h'.resolve_left fun hz => hany (.inr hz))]
    obtain ⟨hhour, hday⟩ := List.append_inj' heq hlength
    exact ⟨numeralOf_inj hhour, numeralOf_inj hday⟩

theorem hourly_check : hourly.check root = .ok () := by
  unfold ExportPath.check
  rw [if_neg (by decide), if_neg (by decide)]
  refine checkProbes_of (fun p _ => ⟨_, hourly_file p, by simp⟩) fun p hp q hq file hpfile hqfile => ?_
  rw [hourly_file] at hpfile hqfile
  have hname : hourlyName p = hourlyName q :=
    List.append_cancel_right ((Except.ok.inj hpfile).trans (Except.ok.inj hqfile).symm)
  obtain ⟨hpsweep, hpyears, hpstart⟩ := probes_sweep p hp
  obtain ⟨hqsweep, hqyears, hqstart⟩ := probes_sweep q hq
  have hrest := List.append_cancel_left hname
  obtain ⟨hyear, hrest⟩ := List.append_inj hrest (by rw [length_fixed, length_fixed])
  obtain ⟨hmonth, hrest⟩ := List.append_inj hrest (by rw [length_fixed, length_fixed])
  obtain ⟨hhour, hday⟩ := run_apart hpsweep hqsweep (hourOf_lt p) (hourOf_lt q) (List.cons.inj hrest).2
  have hnat := fixed_inj (by have := hpyears.2; omega) (by have := hqyears.2; omega) hyear
  have hyears : (dateOf p).year = (dateOf q).year := by
    have hplow := hpyears.1
    have hqlow := hqyears.1
    omega
  have hdate : dateOf p = dateOf q := date_ext hyears (fixed_inj (month_lt p) (month_lt q) hmonth) hday
  rw [(start_fields (by decide) hpstart).1, (start_fields (by decide) hqstart).1, hdate, hhour]

theorem hourly_injective_iff : (CheckedInjective hourly root ↔ WidthsTold hourly root) ∧
    (Delimited (hourly.parts root) = true → CheckedInjective hourly root) :=
  checked_path_injective_iff hourly root (by decide)

/-- **Digits run together.** 11 o'clock on the 1st and 1 o'clock on the 11th of January 2000 have one file, of
    a path that passes the check. -/
theorem digits_run_together : ¬ ∀ (path : ExportPath) (mount : Mount), path.period ≠ .all →
    CheckedInjective path mount := by
  intro h
  have hfile : hourlyName (EPOCH + HOUR * 11) = hourlyName (EPOCH + DAY * 10 + HOUR) := by decide
  refine h hourly root (by decide) hourly_check (EPOCH + HOUR * 11) (EPOCH + DAY * 10 + HOUR) ?_ (by decide)
    _ _ (hourly_file _) (hourly_file _) (by rw [hfile])
  exact ⟨by decide, by decide⟩

end Ceres.Exporter
