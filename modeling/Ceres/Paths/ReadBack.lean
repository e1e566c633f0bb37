/-
  File:      Ceres/Paths/ReadBack.lean
  Subject:   FOLDERS THAT A WALK FINDS AGAIN (`paths.py`: `PathTemplate.render`, `PathLayout.walk`).

  The folder of a time is found by a walk of a range that holds the time if its names are read, one after the
  other, into fields whose period holds the time. A walk fails with a name of the year 0, where a day of the
  year is known at the same level, so that it does not find the folders behind it.

  * `readsBack` -- the names are read and hold the time; `stumbles` -- a name of the year 0 can end the walk;
  * **`walk_not_raised`** -- a walk of a layout that does not stumble fails in no tree; **`stray_hides`** -- the
    path of the year 0 that hides a folder from the walk of another;
  * **`walk_reads_back_iff`** -- a folder is found in every tree and by every range exactly if its names are
    read back and the layout does not stumble; `zero_ends_walk` -- `{yyyy}-{DDD}`;
  * `readsBack_of_says` -- names that say the time are read back where the clocks keep its calendar units;
    **`plain_found`** -- so full years and fixed widths are, where the clocks are never changed.
-/
import Ceres.Paths.Order

namespace Ceres.Paths

open Ceres.Library Ceres.Database

/-! ## 1. Names that hold a time -/

/-- The period of the fields holds the time, or is not known yet. -/
def holdsTime (zone : Zone) (t : Int) (fields : Fields) : Bool :=
  match period zone fields with
  | none => false
  | some .open => true
  | some (.span first last) => decide (first ≤ t ∧ t < last)

def readsBack (values : Values) (zone : Zone) (t : Int) : List (List Part) → Fields → List Text → Bool
  | [], _, [] => true
  | level :: levels, known, name :: names =>
    match readName values known level name with
    | .ok (some found) => holdsTime zone t found && readsBack values zone t levels found names
    | _ => false
  | _, _, _ => false

/-- The names of a rendered path. -/
def namesOf (path : Text) : List Text := path.splitOn '/'

variable {fields : Fields}

theorem admits_of_holds {zone : Zone} {t after before : Int} (h : holdsTime zone t fields = true)
    (hrange : after ≤ t ∧ t < before) : admits zone after before fields = true := by
  unfold holdsTime at h
  unfold admits
  cases hperiod : period zone fields with
  | none =>
    rw [hperiod] at h
    cases h
  | some span =>
    rw [hperiod] at h
    cases span with
    | «open» => rfl
    | span first last =>
      obtain ⟨hfirst, hlast⟩ := of_decide_eq_true h
      exact decide_eq_true ⟨hfirst.trans_lt hrange.2, hrange.1.trans_lt hlast⟩

theorem admits_one (zone : Zone) (t : Int) (fields : Fields) : admits zone t (t + 1) fields = holdsTime zone t fields := by
  unfold admits holdsTime
  cases period zone fields with
  | none => rfl
  | some span =>
    cases span with
    | «open» => rfl
    | span first last => exact decide_eq_decide.mpr (and_congr_left fun _ => Int.lt_add_one_iff)

section Opens

variable {values : Values} {zone : Zone} {t after before : Int}

theorem opens_of_readsBack (hrange : after ≤ t ∧ t < before) : ∀ {levels : List (List Part)} {known : Fields}
    {names : List Text}, readsBack values zone t levels known names = true →
      (visitor values zone after before).Opens levels known names
  | [], _, [], _ => trivial
  | level :: levels, known, name :: names, h => by
    unfold readsBack at h
    split at h
    · rename_i found hread
      obtain ⟨hholds, hrest⟩ := (Bool.and_eq_true _ _).mp h
      exact ⟨found, hread, admits_of_holds hholds hrange, opens_of_readsBack hrange hrest⟩
    · cases h

theorem readsBack_of_opens : ∀ {levels : List (List Part)} {known : Fields} {names : List Text},
    (visitor values zone t (t + 1)).Opens levels known names → readsBack values zone t levels known names = true
  | [], _, [], _ => rfl
  | level :: levels, known, name :: names, ⟨found, hread, haccepts, hopens⟩ => by
    have hread : readName values known level name = .ok (some found) := hread
    have hholds : holdsTime zone t found = true := (admits_one zone t found).symm.trans haccepts
    unfold readsBack
    rw [hread]
    exact (Bool.and_eq_true _ _).mpr ⟨hholds, readsBack_of_opens hopens⟩

end Opens

/-! ## 2. The year 0 -/

/-- What is known names no calendar prefix. -/
def unnamed (known : Field → Bool) : Bool :=
  let depth := (CALENDAR.takeWhile known).length
  decide (depth = 0) || (CALENDAR.drop depth).any known

/-- A level makes a year of four digits and a day of it known, and a folder of the year 0 leads there: the
    levels above do not read the year as `{yy}`, and their folders have no period. -/
def stumbles : (Field → Bool) → List (List Part) → Bool
  | _, [] => false
  | known, level :: levels =>
    !decide (Part.atom (.symbol .yy) ∈ level) &&
      (halfway known level .doy && halfway known level .year ||
        unnamed (learn known level) && stumbles (learn known level) levels)

def PathLayout.stumbles (layout : PathLayout) : Bool := Paths.stumbles (fun _ => false) layout.levels

theorem gapped_iff {known : Field → Bool} (h : fields.Knows known) : Gapped fields ↔ unnamed known = true := by
  obtain rfl : (fun field => (fields field).isSome) = known := funext h
  rw [unnamed, Bool.or_eq_true, decide_eq_true_eq]
  rfl

theorem year_of_period {zone : Zone} (hgapped : ¬ Gapped fields)
    (hperiod : period zone fields ≠ none) : ∃ start, naive fields = some start := by
  rw [period_deep hgapped] at hperiod
  cases hnaive : naive fields with
  | none =>
    rw [hnaive] at hperiod
    exact absurd rfl hperiod
  | some start => exact ⟨start, rfl⟩

theorem gapped_of_zero {zone : Zone} {after before : Int} (hyear : fields .year = some 0)
    (haccepts : admits zone after before fields = true) : Gapped fields := by
  by_contra hgapped
  have hperiod : period zone fields ≠ none := by
    intro hnone
    unfold admits at haccepts
    rw [hnone] at haccepts
    cases haccepts
  obtain ⟨start, hnaive⟩ := year_of_period hgapped hperiod
  have hshows := naive_fields hnaive
  have hlow := hshows.years.1
  rw [hshows.year, hyear] at hlow
  exact absurd hlow (by decide)

theorem readGroups_read : ∀ {list : List (Capture × Text)} {fields fields' : Fields},
    readGroups fields list = some fields' → ∀ pair ∈ list, pair.1.field.lasting = true →
      fields' pair.1.field = some (pair.1.read pair.2)
  | [], _, _, _, _, hpair, _ => by cases hpair
  | (capture, text) :: rest, fields, fields', h, pair, hpair, hlasting => by
    obtain ⟨middle, hmiddle, hrest⟩ := Option.bind_eq_some_iff.mp h
    rcases List.mem_cons.mp hpair with rfl | hpair
    · refine readGroups_kept hrest _ _ hlasting ?_
      rw [(setdefault_eq_some hmiddle).1, Function.update_self]
    · exact readGroups_read hrest pair hpair hlasting

theorem mergeHalf_year {fields fields' : Fields} (h : mergeHalf fields = some fields') :
    fields' .year = fields .year := by
  unfold mergeHalf at h
  split at h
  · split at h
    · rw [(setdefault_eq_some h).1]
      rfl
    · cases h
  · obtain rfl := Option.some.inj h
    rfl

/-- **A name that is read** is merged with what was known, before a day of the year is; a year of two digits is
    not 0. -/
theorem readName_halfway {values : Values} {level : List Part} {name : Text} {known : Field → Bool}
    (hknown : fields.Knows known) (h : readName values fields level name ≠ .ok none) :
    ∃ middle : Fields, readName values fields level name = mergeDay middle ∧ fields.Kept middle ∧
      middle.Knows (halfway known level) ∧ (Part.atom (.symbol .yy) ∈ level → ∃ year, middle .year = some (year + 2000)) := by
  unfold readName at h ⊢
  cases hmatch : fullmatch (pieces values level) name with
  | none =>
    rw [hmatch] at h
    exact absurd rfl h
  | some groups =>
    rw [hmatch] at h
    have hlength := reads_length (reads_of_fullmatch hmatch)
    dsimp only at h ⊢
    unfold merge at h ⊢
    cases hmerged : (readGroups fields ((captures level).zip groups)).bind mergeHalf with
    | none =>
      rw [hmerged] at h
      exact absurd rfl h
    | some middle =>
      obtain ⟨first, hread, hhalf⟩ := Option.bind_eq_some_iff.mp hmerged
      have hgain := readGroups_knows hread hknown
      rw [List.map_fst_zip hlength.ge] at hgain
      refine ⟨middle, rfl, (readGroups_kept hread).trans (mergeHalf_kept hhalf), mergeHalf_knows hhalf hgain,
        fun hshort => ?_⟩
      have hcapture : (⟨.year, .digits 2 2 2000⟩ : Capture) ∈ captures level :=
        List.mem_filterMap.mpr ⟨_, hshort, rfl⟩
      obtain ⟨i, hi, hget⟩ := List.mem_iff_getElem.mp hcapture
      have hzip : i < ((captures level).zip groups).length := by
        rw [List.length_zip]
        omega
      have hyear := readGroups_read hread _ (List.getElem_mem hzip) (by
        rw [List.getElem_zip, hget]
        rfl)
      rw [List.getElem_zip, hget] at hyear
      refine ⟨intOf (groups.get ⟨i, by omega⟩), ?_⟩
      rw [mergeHalf_year hhalf]
      refine hyear.trans (congrArg some ?_)
      exact Nat.add_comm _ _

theorem mergeDay_error {e : YearError} (h : mergeDay fields = .error e) :
    (fields .doy).isSome = true ∧ fields .year = some 0 := by
  unfold mergeDay at h
  split at h
  · rename_i hdoy hyear
    dsimp only at h
    split_ifs at h with hzero
    exact ⟨by rw [hdoy]; rfl, hzero ▸ hyear⟩
  · cases h

/-- What is known of a folder that is reached in a layout that does not stumble. -/
def Steady (levels : List (List Part)) (_ : List Text) (fields : Fields) : Prop :=
  ∃ known, fields.Knows known ∧ ((∃ year, fields .year = some (year + 1)) ∨ stumbles known levels = false)

/-- **A walk of a layout that does not stumble** fails in no tree. -/
theorem walk_not_raised {layout : PathLayout} (h : layout.stumbles = false) (folders : Folders Text)
    (values : Values) (zone : Zone) (after before : Int) :
    ((visitor values zone after before).visit folders layout.levels [] Fields.empty).raised = false := by
  refine not_raised (I := Steady) ?_ ?_ ⟨_, knows_empty, .inr h⟩
  · rintro level levels folder fields entries ⟨known, hknown, hsteady⟩ - entry - e hread
    have hread : readName values fields level entry.1 = .error e := hread
    obtain ⟨middle, hmiddle, hkept, hknows, hshort⟩ := readName_halfway hknown (by rw [hread]; simp)
    obtain ⟨hdoy, hzero⟩ := mergeDay_error (hmiddle.symm.trans hread)
    rcases hsteady with ⟨year, hyear⟩ | hstumbles
    · rw [hkept .year _ rfl hyear] at hzero
      cases hzero
    · have hboth : (halfway known level .doy && halfway known level .year) = true := by
        rw [← hknows .doy, ← hknows .year, hdoy, hzero]
        rfl
      have hlong : Part.atom (.symbol .yy) ∉ level := by
        intro hmem
        obtain ⟨year, hyear⟩ := hshort hmem
        rw [hyear] at hzero
        cases hzero
      unfold Paths.stumbles at hstumbles
      rw [hboth, decide_eq_false hlong] at hstumbles
      cases hstumbles
  · rintro level levels folder fields entries name found ⟨known, hknown, hsteady⟩ - - hread haccepts
    have hread : readName values fields level name = .ok (some found) := hread
    have hfound := readName_knows hread hknown
    refine ⟨_, hfound, ?_⟩
    rcases hsteady with ⟨year, hyear⟩ | hstumbles
    · exact .inl ⟨year, readName_kept hread .year _ rfl hyear⟩
    · obtain ⟨middle, hmiddle, -, -, hshort⟩ := readName_halfway hknown (by rw [hread]; simp)
      have hlater : middle.Kept found := mergeDay_kept (hmiddle.symm.trans hread)
      by_cases hzero : ∃ year, found .year = some (year + 1)
      · exact .inl hzero
      · refine .inr ?_
        have hlong : Part.atom (.symbol .yy) ∉ level := by
          intro hmem
          obtain ⟨year, hyear⟩ := hshort hmem
          exact hzero ⟨year + 1999, hlater .year _ rfl hyear⟩
        have hgapped : Gapped found := by
          cases hyear : found .year with
          | none =>
            refine .inl ?_
            unfold depthOf CALENDAR
            rw [List.takeWhile_cons, hyear]
            rfl
          | some year =>
            cases year with
            | zero => exact gapped_of_zero hyear haccepts
            | succ year => exact absurd ⟨year, hyear⟩ hzero
        unfold Paths.stumbles at hstumbles
        rw [decide_eq_false hlong, (gapped_iff hfound).mp hgapped, Bool.not_false, Bool.true_and, Bool.true_and,
          Bool.or_eq_false_iff] at hstumbles
        exact hstumbles.2

/-! ## 3. A path of the year 0 -/

theorem halfway_reads (parts level : List Part) {field : Field} (hfield : field = .year ∨ field = .doy) :
    halfway (knownOf (reads parts)) level field = reads (parts ++ level) field := by
  have hgain : halfway (knownOf (reads parts)) level field = gain (knownOf (reads parts)) (captures level) field := by
    unfold halfway halfKnown
    rcases hfield with rfl | rfl
    all_goals
      split_ifs
      · rfl
      · rfl
  rw [hgain, gain, captures_any, reads_append]
  rcases hfield with rfl | rfl <;> rfl

/-- The fields of a path with a year, which another year can take the place of. -/
structure Astray (v : Stamp) (last : Fields) : Prop where
  coherent : Coherent v
  zero : v .year = 0
  fits : ∀ {s : Symbol} {capture : Capture}, s.capture = some capture → capture.field ≠ .year →
    capture.Fits (v capture.field)
  same : ∀ field value, field ≠ .year → last field = some value → value = v field
  year : ∃ year, last .year = some (year + 1)

/-- Four digits write every year. -/
theorem fits_long {s : Symbol} {capture : Capture} (h : s.capture = some capture) (hlong : s ≠ .yy)
    (hfield : capture.field = .year) {year : Nat} (hyear : year ≤ 9999) : capture.Fits year := by
  cases s <;> cases h
  case yyyy => exact ⟨Nat.zero_le _, hyear.trans_lt (by decide)⟩
  case yy => exact absurd rfl hlong
  all_goals cases hfield

theorem admits_gapped {zone : Zone} {after before : Int} (h : Gapped fields) :
    admits zone after before fields = true := by
  unfold admits
  rw [period_gapped h]

section Stray

variable {v : Stamp} {last : Fields} (hv : Astray v last) {values : Values}
include hv

/-- A level without `{yy}` has a name of the year 0. -/
theorem says_zero {level : List Part} (hlong : Part.atom (.symbol .yy) ∉ level) :
    Says values v level (writeName 0x30 v values level) := by
  refine says_written decimals_ascii fun capture hcapture => ?_
  obtain ⟨part, hpart, hcapture⟩ := List.mem_filterMap.mp hcapture
  rcases part with text | s | unit | n
  · cases hcapture
  · by_cases hfield : capture.field = .year
    · rw [hfield, hv.zero]
      exact fits_long hcapture (by rintro rfl; exact hlong hpart) hfield (Nat.zero_le _)
    · exact hv.fits hcapture hfield
  · cases hcapture
  · cases hcapture

theorem zero_raises (zone : Zone) (after before : Int) : ∀ {levels : List (List Part)} {known : Field → Bool} {fields : Fields},
    fields.Of v → fields.Knows known → stumbles known levels = true → ∃ stray : List Text, ∀ folders folder,
      Folders.Holds folders folder stray →
        ((visitor values zone after before).visit folders levels folder fields).raised = true
  | level :: levels, known, fields, hof, hknown, h => by
    unfold stumbles at h
    obtain ⟨hlong, hrest⟩ := (Bool.and_eq_true _ _).mp h
    have hsaid : Says values v level (writeName 0x30 v values level) :=
      says_zero hv (of_decide_eq_false (Bool.not_eq_true' _ ▸ hlong))
    cases hboth : halfway known level .doy && halfway known level .year
    · rw [hboth, Bool.false_or] at hrest
      obtain ⟨hunnamed, hstumbles⟩ := (Bool.and_eq_true _ _).mp hrest
      obtain ⟨found, hread, hfound, hknows⟩ := readName_said hv.coherent hof hknown hsaid fun hdoy hyear => by
        rw [hdoy, hyear] at hboth
        cases hboth
      obtain ⟨stray, hstray⟩ := zero_raises zone after before hfound hknows hstumbles
      refine ⟨writeName 0x30 v values level :: stray, fun folders folder hholds => ?_⟩
      obtain ⟨⟨entries, hentries, hentry⟩, hholds⟩ := hholds
      exact @raised_of_child _ _ _ _ _ _ _ (writeName 0x30 v values level, found) _ _ _ _ _ entries hentries hentry hread
        (admits_gapped ((gapped_iff hknows).mpr hunnamed)) (hstray folders _ hholds)
    · obtain ⟨hdoy, hyear⟩ := (Bool.and_eq_true _ _).mp hboth
      have hread := readName_zero hv.coherent hof hknown hsaid hv.zero hdoy hyear
      refine ⟨[writeName 0x30 v values level], fun folders folder hholds => ?_⟩
      obtain ⟨⟨entries, hentries, hentry⟩, -⟩ := hholds
      exact raised_of_error hentries hentry hread

theorem of_astray {levels : List (List Part)} {parts : List Part} {fields : Fields} {names : List Text}
    (hknown : fields.Knows (knownOf (reads parts))) (hyear : fields .year = none)
    (hlast : readDown (reader values) levels fields names = some last) : fields.Of v := by
  intro field value hvalue
  have hsome := hknown field
  rw [hvalue] at hsome
  by_cases hfield : field = .year
  · rw [hfield, hyear] at hvalue
    cases hvalue
  · have hlasting : field.lasting = true := by
      cases field with
      | hour12 | meridiem => cases hsome
      | year | month | day | hour | minute | second | doy => rfl
    exact hv.same field value hfield (readDown_kept hlast field value hlasting hvalue)

/-- **A path of the year 0 hides a path**: it leaves it where its year is known, and is walked before it. -/
theorem stray_hides (zone : Zone) (after before : Int) : ∀ {levels : List (List Part)} {parts : List Part} {fields : Fields}
    {names : List Text}, (∀ segment ∈ levels, halved segment = true) → fields.Knows (knownOf (reads parts)) →
      fields .year = none → readDown (reader values) levels fields names = some last →
        stumbles (knownOf (reads parts)) levels = true → ∃ stray : List Text, ∀ folders folder,
          Folders.Holds folders folder stray →
            folder ++ names ∉ ((visitor values zone after before).visit folders levels folder fields).values
  | level :: levels, parts, fields, [], _, _, _, hlast, _ => by cases hlast
  | level :: levels, parts, fields, name :: names, hhalved, hknown, hnone, hlast, h => by
    have hof := of_astray hv hknown hnone hlast
    obtain ⟨hfirst, hrest⟩ := List.forall_mem_cons.mp hhalved
    unfold stumbles at h
    obtain ⟨hlong, hlater⟩ := (Bool.and_eq_true _ _).mp h
    have hsaid : Says values v level (writeName 0x30 v values level) :=
      says_zero hv (of_decide_eq_false (Bool.not_eq_true' _ ▸ hlong))
    cases hboth : halfway (knownOf (reads parts)) level .doy && halfway (knownOf (reads parts)) level .year
    · rw [hboth, Bool.false_or, learn_knownOf hfirst] at hlater
      obtain ⟨hunnamed, hlater⟩ := (Bool.and_eq_true _ _).mp hlater
      rw [readDown] at hlast
      split at hlast
      · rename_i found hread
        have hknows := readName_knows hread hknown
        rw [learn_knownOf hfirst] at hknows
        cases hyear : found .year with
        | none =>
          -- the stray path goes on with the path's own name
          obtain ⟨stray, hstray⟩ := stray_hides zone after before hrest hknows hyear hlast hlater
          refine ⟨name :: stray, fun folders folder hholds hmem => ?_⟩
          obtain ⟨middle, hmiddle, hbelow⟩ := mem_visit_first hmem
          obtain rfl := Option.some.inj (Except.ok.inj (hread.symm.trans hmiddle))
          exact hstray folders _ hholds.2 hbelow
        | some year =>
          -- it leaves the path with a name of the year 0
          obtain ⟨zero, hzero, hzeroOf, hzeroKnows⟩ := readName_said hv.coherent hof hknown hsaid fun hdoy hyear => by
            rw [hdoy, hyear] at hboth
            cases hboth
          rw [learn_knownOf hfirst] at hzeroKnows
          obtain ⟨stray, hstray⟩ := zero_raises hv zone after before hzeroOf hzeroKnows hlater
          refine ⟨writeName 0x30 v values level :: stray, fun folders folder hholds => ?_⟩
          obtain ⟨⟨entries, hentries, hentry⟩, hholds⟩ := hholds
          refine @not_mem_of_first _ _ _ _ _ _ _ _ _ _ _ _ entries hentries (writeName 0x30 v values level, zero) hentry
            hzero (admits_gapped ((gapped_iff hzeroKnows).mpr hunnamed)) (hstray folders _ hholds) _ _ fun other hother => ?_
          obtain rfl := Option.some.inj (Except.ok.inj (hread.symm.trans hother))
          obtain ⟨last, hlastYear⟩ := hv.year
          have hlate : found .year = some (last + 1) := by
            rw [hyear, ← hlastYear, readDown_kept hlast .year _ rfl hyear]
          obtain ⟨early, hearly⟩ : ∃ early, zero .year = some early :=
            Option.isSome_iff_exists.mp (by rw [hzeroKnows .year, ← hknows .year, hyear]; rfl)
          rw [hzeroOf .year _ hearly, hv.zero] at hearly
          refine Prod.Lex.toLex_lt_toLex.mpr (.inl ?_)
          simp only [CALENDAR, List.cons_append, List.map_cons, List.cons_lt_cons_iff, hearly, hlate]
          exact .inl (Nat.succ_pos last)
      · cases hlast
    · obtain ⟨hdoy, hyear⟩ := (Bool.and_eq_true _ _).mp hboth
      have hread := readName_zero hv.coherent hof hknown hsaid hv.zero hdoy hyear
      refine ⟨[writeName 0x30 v values level], fun folders folder hholds => ?_⟩
      obtain ⟨⟨entries, hentries, hentry⟩, -⟩ := hholds
      exact not_mem_of_error hentries hentry hread _

end Stray

/-! ## 4. The folders that are found -/

theorem year_of_stumbles : ∀ {levels : List (List Part)} {parts : List Part},
    (∀ segment ∈ levels, halved segment = true) → stumbles (knownOf (reads parts)) levels = true →
      reads (parts ++ levels.flatten) .year = true
  | level :: levels, parts, hhalved, h => by
    obtain ⟨hfirst, hrest⟩ := List.forall_mem_cons.mp hhalved
    unfold stumbles at h
    obtain ⟨-, hlater⟩ := (Bool.and_eq_true _ _).mp h
    rw [List.flatten_cons, ← List.append_assoc]
    rcases (Bool.or_eq_true _ _).mp hlater with hboth | hlater
    · have hyear := ((Bool.and_eq_true _ _).mp hboth).2
      rw [halfway_reads parts level (.inl rfl)] at hyear
      rw [reads_append, hyear, Bool.true_or]
    · rw [learn_knownOf hfirst] at hlater
      exact year_of_stumbles hrest ((Bool.and_eq_true _ _).mp hlater).2

theorem mergeDay_day {fields fields' : Fields} (h : mergeDay fields = .ok (some fields')) {doy year : Nat}
    (hdoy : fields' .doy = some doy) (hyear : fields' .year = some year) :
    ∃ day : Date, day = civil (daysOf ⟨year, 1, 1⟩ + (doy - 1)) ∧ day.year = year ∧
      fields' .month = some day.month ∧ fields' .day = some day.day := by
  have hkept := mergeDay_kept h
  unfold mergeDay at h
  split at h
  · rename_i doy' year' hdoy' hyear'
    obtain rfl := Option.some.inj ((hkept .doy _ rfl hdoy').symm.trans hdoy)
    obtain rfl := Option.some.inj ((hkept .year _ rfl hyear').symm.trans hyear)
    dsimp only at h
    split_ifs at h with hzero hother
    · cases h
    · obtain ⟨middle, hmonth, hday⟩ := Option.bind_eq_some_iff.mp (Except.ok.inj h)
      refine ⟨_, rfl, not_not.mp hother, ?_, ?_⟩
      · refine setdefault_kept hday _ _ rfl ?_
        rw [(setdefault_eq_some hmonth).1, Function.update_self]
      · rw [(setdefault_eq_some hday).1, Function.update_self]
  · rename_i hnone
    obtain rfl := Option.some.inj (Except.ok.inj h)
    exact absurd hyear (hnone doy year hdoy)

theorem readDown_merged {values : Values} : ∀ {levels : List (List Part)} {known last : Fields} {names : List Text},
    readDown (reader values) levels known names = some last → levels ≠ [] →
      ∃ middle, mergeDay middle = .ok (some last)
  | [], _, _, _, _, hne => absurd rfl hne
  | level :: levels, known, last, [], h, _ => by cases h
  | level :: levels, known, last, name :: names, h, _ => by
    rw [readDown] at h
    split at h
    · rename_i found hread
      have hread : readName values known level name = .ok (some found) := hread
      cases levels with
      | nil =>
        cases names with
        | nil =>
          obtain rfl := Option.some.inj h
          obtain ⟨middle, hmiddle, -⟩ := readName_halfway (fun _ => rfl) (by rw [hread]; simp)
          exact ⟨middle, hmiddle.symm.trans hread⟩
        | cons other names => cases h
      | cons next levels => exact readDown_merged h (List.cons_ne_nil _ _)
    · cases h

/-- The fields of a whole path are those of the time it names. -/
theorem of_shows {last : Fields} {start : Int} (hshows : Shows last start)
    (hmerged : ∃ middle, mergeDay middle = .ok (some last)) {parts : List Part}
    (hknows : last.Knows (knownOf (reads parts))) (hyear : reads parts .year = true) : last.Of (stampOf start) := by
  obtain ⟨year, hlast⟩ := Option.isSome_iff_exists.mp ((hknows .year).trans hyear)
  have hyears := hshows.year
  rw [hlast, Option.getD_some] at hyears
  intro field value hvalue
  have hsome := hknows field
  rw [hvalue] at hsome
  cases field with
  | hour12 | meridiem => cases hsome
  | year =>
    rw [hlast] at hvalue
    show value = (dateOf start).year.toNat
    rw [hyears, Int.toNat_natCast]
    exact (Option.some.inj hvalue).symm
  | month => exact (hshows.month.trans (by rw [hvalue]; rfl)).symm
  | day => exact (hshows.day.trans (by rw [hvalue]; rfl)).symm
  | hour => exact (hshows.hour.trans (by rw [hvalue]; rfl)).symm
  | minute => exact (hshows.minute.trans (by rw [hvalue]; rfl)).symm
  | second => exact (hshows.second.trans (by rw [hvalue]; rfl)).symm
  | doy =>
    obtain ⟨middle, hmiddle⟩ := hmerged
    obtain ⟨day, hday, hsame, hmonth, hdays⟩ := mergeDay_day hmiddle hvalue hlast
    have hdate : dateOf start = day := by
      have hmonths := hshows.month
      have hdayOf := hshows.day
      rw [hmonth, Option.getD_some] at hmonths
      rw [hdays, Option.getD_some] at hdayOf
      rw [← hsame] at hyears
      obtain ⟨y, m, d⟩ := day
      generalize dateOf start = date at *
      obtain ⟨y', m', d'⟩ := date
      simp only at *
      rw [hyears, hmonths, hdayOf]
    have hordinal : (dateOf start).ordinal = value := by
      unfold Date.ordinal
      rw [hyears, hdate, hday, daysOf_civil]
      omega
    show value = (dateOf start).ordinal.toNat
    rw [hordinal, Int.toNat_natCast]

theorem knownOf_nil : knownOf (reads []) = fun _ => false := by
  funext field
  cases field <;> rfl

/-- **A folder that is read back by a layout that stumbles** has a path of the year 0 beside it. -/
theorem astray_of {layout : PathLayout} {values : Values} {zone : Zone} {t : Int} {names : List Text}
    (hreads : readsBack values zone t layout.levels Fields.empty names = true) (h : layout.stumbles = true) :
    ∃ v last, readDown (reader values) layout.levels Fields.empty names = some last ∧ Astray v last := by
  have hopens := opens_of_readsBack ⟨le_refl t, Int.lt_succ t⟩ hreads
  obtain ⟨last, hlast, haccepts⟩ := opens_readDown hopens
  have haccepts : admits zone t (t + 1) last = true := haccepts (segmentsOf_ne_nil _)
  have hyear : reads layout.levels.flatten .year = true :=
    @year_of_stumbles _ [] (levels_halved layout) (by rw [knownOf_nil]; exact h)
  have hknows : last.Knows (knownOf (reads layout.levels.flatten)) :=
    @readDown_knows _ _ [] _ _ _ (levels_halved layout) (by rw [knownOf_nil]; exact knows_empty) hlast
  obtain ⟨depth, hle, htake, -⟩ := calendar_take layout
  have hcalendar : ∀ field ∈ CALENDAR, (last field).isSome = decide (field ∈ CALENDAR.take depth) := by
    intro field hfield
    rw [hknows field, known_calendar layout hfield, htake]
  have hne : depth ≠ 0 := by
    rintro rfl
    have hsome := hcalendar .year (by decide)
    rw [hknows .year] at hsome
    exact absurd (hyear.symm.trans hsome) (by decide)
  have hperiod : period zone last ≠ none := by
    intro hnone
    unfold admits at haccepts
    rw [hnone] at haccepts
    cases haccepts
  obtain ⟨start, hnaive⟩ := year_of_period (not_gapped hle hne hcalendar) hperiod
  have hshows := naive_fields hnaive
  have hof := of_shows hshows (readDown_merged hlast (segmentsOf_ne_nil _)) hknows hyear
  refine ⟨Function.update (stampOf start) .year 0, last, hlast, ?_⟩
  have hother : ∀ field, field ≠ .year → Function.update (stampOf start) .year 0 field = stampOf start field :=
    fun field hfield => Function.update_of_ne hfield _ _
  constructor
  · refine ⟨(coherent_stamp hshows.years.1).half, fun hyear => absurd ?_ hyear⟩
    exact Function.update_self ..
  · exact Function.update_self ..
  · intro s capture hcapture hfield
    rw [hother _ hfield]
    exact fits_stamp start hcapture hfield
  · intro field value hfield hvalue
    rw [hother _ hfield]
    exact hof field value hvalue
  · obtain ⟨year, hsome⟩ := Option.isSome_iff_exists.mp ((hknows .year).trans hyear)
    have hlow := hshows.years.1
    rw [hshows.year, hsome, Option.getD_some] at hlow
    exact ⟨year - 1, by rw [hsome, Nat.sub_add_cancel (by omega)]⟩

variable {when : Moment}

/-- A template that is rendered has a value for each of its names. -/
theorem lacks_of_render {layout : PathLayout} {values : Values} {path : Text}
    (h : layout.render when values = .ok path) : ∀ part ∈ layout.parts, part.lacks values = false := by
  rintro (text | s | unit | n) hpart
  · rfl
  · rfl
  · rfl
  · obtain ⟨text, htext, -⟩ := atoms_of_pieces (renderParts_ok h).1 _ hpart
    have htext : values n = some text := htext
    rw [Part.lacks, htext]
    rfl

section Found

variable {layout : PathLayout} {zone : Zone} {values : Values} {t : Int} {path : Text}

/-- **A folder that is read back** is found in every tree, if no name of the year 0 can end the walk. -/
theorem found_of_readsBack (hpath : layout.render ⟨t, zone.offset t⟩ values = .ok path)
    (hreads : readsBack values zone t layout.levels Fields.empty (namesOf path) = true)
    (hsteady : layout.stumbles = false) {folders : Folders Text} {after before : Int} (hafter : after ≤ t)
    (hbefore : t < before) (hholds : folders.Holds [] (namesOf path)) :
    ∃ walked, layout.walk folders after before zone values = .ok walked ∧ walked.values.count (namesOf path) = 1 := by
  have hcount := count_visit (walk_not_raised hsteady folders values zone after before)
    (opens_of_readsBack ⟨hafter, hbefore⟩ hreads) hholds
  rw [List.nil_append] at hcount
  refine ⟨_, walk_of folders after before zone (lacks_of_render hpath), ?_⟩
  convert hcount

theorem mem_of_found {folders : Folders Text} {after before : Int} (h : ∃ walked,
    layout.walk folders after before zone values = .ok walked ∧ walked.values.count (namesOf path) = 1) :
    namesOf path ∈ ((visitor values zone after before).visit folders layout.levels [] Fields.empty).values := by
  obtain ⟨walked, hwalked, hcount⟩ := h
  rw [walk_ok hwalked] at hcount
  exact List.count_pos_iff.mp (by omega)

theorem exists_not_found (hreads : readsBack values zone t layout.levels Fields.empty (namesOf path) = true)
    (h : layout.stumbles = true) : ∃ folders : Folders Text, folders.Holds [] (namesOf path) ∧
      namesOf path ∉ ((visitor values zone t (t + 1)).visit folders layout.levels [] Fields.empty).values := by
  obtain ⟨v, last, hlast, hv⟩ := astray_of hreads h
  obtain ⟨stray, hstray⟩ := @stray_hides v last hv values zone t (t + 1) _ [] Fields.empty _
    (levels_halved layout)
    (by rw [knownOf_nil]; exact knows_empty) rfl hlast (by rw [knownOf_nil]; exact h)
  exact ⟨Folders.ofPaths [namesOf path, stray], ofPaths_holds (by simp), hstray _ [] (ofPaths_holds (by simp))⟩

end Found

/-- **A layout's folders are found again.** The folder of a time is found once in every tree that holds it, by
    every range that holds the time, exactly if its names are read back to the time and no name of the year 0
    can end the walk. -/
theorem walk_reads_back_iff (layout : PathLayout) (zone : Zone) (values : Values) (t : Int) (path : Text)
    (hpath : layout.render ⟨t, zone.offset t⟩ values = .ok path) :
    (∀ folders after before, after ≤ t → t < before → Folders.Holds folders [] (namesOf path) →
      ∃ walked, layout.walk folders after before zone values = .ok walked ∧
        walked.values.count (namesOf path) = 1) ↔
      readsBack values zone t layout.levels Fields.empty (namesOf path) = true ∧ layout.stumbles = false := by
  constructor
  · intro h
    have hone : ∀ folders, Folders.Holds folders [] (namesOf path) →
        namesOf path ∈ ((visitor values zone t (t + 1)).visit folders layout.levels [] Fields.empty).values :=
      fun folders hholds => mem_of_found (h folders t (t + 1) le_rfl (Int.lt_succ t) hholds)
    have hreads : readsBack values zone t layout.levels Fields.empty (namesOf path) = true := by
      obtain ⟨names, hnames, hopens, -⟩ := mem_visit (hone (Folders.ofPaths [namesOf path]) (ofPaths_holds (by simp)))
      rw [List.nil_append] at hnames
      rw [hnames]
      exact readsBack_of_opens hopens
    refine ⟨hreads, ?_⟩
    by_contra hstumbles
    obtain ⟨folders, hholds, hlost⟩ := exists_not_found hreads (Bool.not_eq_false _ ▸ hstumbles)
    exact hlost (hone folders hholds)
  · rintro ⟨hreads, hsteady⟩ folders after before hafter hbefore hholds
    exact found_of_readsBack hpath hreads hsteady hafter hbefore hholds

/-- The 17th of May 2024, in the folder `2024/05`. -/
theorem may_found : MONTHLY.render ⟨daysOf ⟨2024, 5, 17⟩ * DAY, 0⟩ (fun _ => none) = .ok "2024/05".toList ∧
    ∀ folders after before, after ≤ daysOf ⟨2024, 5, 17⟩ * DAY → daysOf ⟨2024, 5, 17⟩ * DAY < before →
      Folders.Holds folders [] (namesOf "2024/05".toList) →
        ∃ walked, MONTHLY.walk folders after before .utc (fun _ => none) = .ok walked ∧
          walked.values.count (namesOf "2024/05".toList) = 1 :=
  ⟨by rfl, (walk_reads_back_iff MONTHLY .utc (fun _ => none) (daysOf ⟨2024, 5, 17⟩ * DAY) "2024/05".toList (by rfl)).mpr
    ⟨by decide, by decide⟩⟩

/-- `{yy}` is read as a year from 2000 to 2099. -/
example : readsBack (fun _ => none) .utc (daysOf ⟨1999, 6, 1⟩ * DAY) [[.atom (.symbol .yy)]] Fields.empty
    ["99".toList] = false := by decide

/-- The 15th of January by `{yyyy}/{M}1{d}` is read as the 5th of November. -/
example : readsBack (fun _ => none) .utc (daysOf ⟨2024, 1, 15⟩ * DAY)
    [[.atom (.symbol .yyyy)], [.atom (.symbol .M), .literal ['1'], .atom (.symbol .d)]] Fields.empty
    ["2024".toList, "1115".toList] = false := by decide

/-- `{yyyy}-{DDD}`. -/
def ORDINAL : PathLayout where
  parts := [.atom (.symbol .yyyy), .literal ['-'], .atom (.symbol .DDD)]
  relative _ _ h := by cases h
  clock := by decide
  probe := by decide
  layable := by decide
  apart := by decide
  halves := by decide
  calendar := by decide

/-- A folder of the year 0, which the layout cannot have rendered, ends the walk before it finds any. -/
theorem zero_ends_walk : ¬ ∀ (layout : PathLayout) (zone : Zone) (values : Values) (t : Int) (path : Text),
    layout.render ⟨t, zone.offset t⟩ values = .ok path →
      ∀ folders after before, after ≤ t → t < before → Folders.Holds folders [] (namesOf path) →
        ∃ walked, layout.walk folders after before zone values = .ok walked ∧
          walked.values.count (namesOf path) = 1 := by
  intro h
  have hpath : ORDINAL.render ⟨daysOf ⟨2024, 1, 1⟩ * DAY, Zone.utc.offset (daysOf ⟨2024, 1, 1⟩ * DAY)⟩ (fun _ => none) =
      .ok "2024-001".toList := by rfl
  have hholds : Folders.Holds (Folders.ofPaths [["0000-001".toList], ["2024-001".toList]]) []
      (namesOf "2024-001".toList) := ofPaths_holds (by decide)
  obtain ⟨walked, hwalked, hcount⟩ := h ORDINAL .utc (fun _ => none) _ _ hpath _ (daysOf ⟨2024, 1, 1⟩ * DAY)
    (daysOf ⟨2024, 1, 2⟩ * DAY) le_rfl (by decide) hholds
  have hended : ORDINAL.walk (Folders.ofPaths [["0000-001".toList], ["2024-001".toList]])
      (daysOf ⟨2024, 1, 1⟩ * DAY) (daysOf ⟨2024, 1, 2⟩ * DAY) .utc (fun _ => none) = .ok ⟨[], true⟩ := by rfl
  obtain rfl := Except.ok.inj (hended.symm.trans hwalked)
  cases hcount

/-! ## 5. Names that say the time -/

theorem namesOf_render {layout : PathLayout} {values : Values} {path : Text}
    (h : layout.render when values = .ok path) : namesOf path = layout.levels.map (textOf when values) := by
  obtain ⟨hpieces, -⟩ := renderParts_ok h
  have hatoms : ∀ a, Part.atom a ∈ layout.parts → '/' ∉ (Part.atom a).text when values := by
    intro a ha
    obtain ⟨text, htext, hslash, -⟩ := atoms_of_pieces hpieces a ha
    rw [Part.text, htext]
    exact hslash
  have hnil : layout.levels.map (textOf when values) ≠ [] :=
    fun hnil => segmentsOf_ne_nil _ (List.map_eq_nil_iff.mp hnil)
  rw [namesOf, renderPieces_ok hpieces, ← textOf_segments]
  refine List.splitOn_intercalate '/' (List.forall_mem_map.mpr fun segment hsegment => ?_) hnil
  exact slash_not_mem_segments when values hatoms hsegment

/-- Every calendar unit of a time starts by then in the zone's clocks, and ends later. -/
def Zone.Keeps (zone : Zone) (t clock : Int) : Prop :=
  ∀ unit ∈ CALENDAR, ∃ finish first last, nextOf unit (floorOf unit clock) = some finish ∧
    zone.localize (floorOf unit clock) = some first ∧ zone.localize finish = some last ∧ first ≤ t ∧ t < last

/-- **Names that say the fields of a time** are read back to it, where the clocks keep its units. -/
theorem readsBack_of_says {zone : Zone} {values : Values} {t clock : Int}
    (hyears : 1 ≤ (dateOf clock).year ∧ (dateOf clock).year ≤ 9999) (hkeeps : zone.Keeps t clock)
    {levels : List (List Part)} {names : List Text} (hsaid : SaysAll values (stampOf clock) levels names) :
    ∀ {known : Fields}, known.Of (stampOf clock) → readsBack values zone t levels known names = true := by
  have hyear : stampOf clock .year ≠ 0 := by
    show (dateOf clock).year.toNat ≠ 0
    omega
  have hholds : ∀ {fields : Fields}, fields.Of (stampOf clock) → holdsTime zone t fields = true := by
    intro fields hof
    unfold holdsTime
    by_cases hgapped : Gapped fields
    · rw [period_gapped hgapped]
    · obtain ⟨finish, first, last, hfinish, hfirst, hlast, hrange⟩ := hkeeps _ (unitAt_mem (depthOf fields))
      rw [period_stamp hyears hof hgapped, hfinish, Option.bind_some, hfirst, Option.bind_some, hlast, Option.bind_some]
      exact decide_eq_true hrange
  induction hsaid with
  | nil => exact fun _ => rfl
  | cons hsaying _ ih =>
    intro known hof
    obtain ⟨found, hread, hfound⟩ := reader_said (coherent_stamp hyears.1) hyear hof hsaying
    unfold readsBack
    rw [show readName values known _ _ = .ok (some found) from hread]
    exact (Bool.and_eq_true _ _).mpr ⟨hholds hfound, ih hfound⟩

/-- Clocks that are never changed. -/
def Zone.fixed (offset : Int) : Zone := ⟨fun _ => offset, fun clock => some (clock - offset * 1000000)⟩

theorem fixed_keeps {offset t : Int} (hyear : (dateOf (t + offset * 1000000)).year ≤ 9998) :
    (Zone.fixed offset).Keeps t (t + offset * 1000000) := by
  intro unit hunit
  obtain ⟨finish, hfinish⟩ := exists_nextOf hyear hunit
  obtain ⟨hlow, hhigh⟩ := lt_nextOf hfinish
  exact ⟨finish, _, _, hfinish, rfl, rfl, by omega, by omega⟩

/-- An atom of one width, with a year of four digits. -/
def Part.plain : Part → Bool
  | atom (.symbol s) => !s.Variable && decide (s ≠ .yy)
  | _ => true

/-- **Such an atom writes its value in full.** -/
theorem symbol_write {s : Symbol} {capture : Capture} (h : s.capture = some capture)
    (hplain : (Part.atom (.symbol s)).plain = true) :
    s.render when = capture.write 0x30 (stampOf when.clock capture.field) := by
  obtain ⟨hfixed, hlong⟩ := (Bool.and_eq_true _ _).mp hplain
  cases s <;> cases h
  case M | d | H | h => cases hfixed
  case yy => cases hlong
  case MMM =>
    show _ = (MONTHS.map (·.take 3)).getD ((dateOf when.clock).month - 1) (([] : Text).take 3)
    rw [List.getD_map]
    rfl
  case MMMM => rfl
  case a =>
    show (if hourOf when.clock < 12 then ['A', 'M'] else ['P', 'M']) =
      [['A', 'M'], ['P', 'M']].getD ((if hourOf when.clock < 12 then 1 else 2) - 1) []
    split_ifs <;> rfl
  all_goals exact (figures_ascii _ _).symm

theorem part_write (values : Values) {part : Part} (hlayable : part.layable = true)
    (hplain : part.plain = true) : part.text when values = part.write 0x30 (stampOf when.clock) values := by
  rcases part with text | s | unit | n
  · rfl
  · obtain ⟨field, hfield⟩ := Option.isSome_iff_exists.mp hlayable
    rw [← capture_field] at hfield
    obtain ⟨capture, hcapture, -⟩ := Option.map_eq_some_iff.mp hfield
    have hpart : (Part.atom (.symbol s)).capture = some capture := hcapture
    rw [Part.write, hpart]
    exact symbol_write hcapture hplain
  · cases hlayable
  · rfl

/-- **The names of a folder of such a layout** say the time's fields. -/
theorem plain_says {layout : PathLayout} {values : Values} {path : Text}
    (hpath : layout.render when values = .ok path) (hplain : layout.parts.all Part.plain = true)
    (hyears : (dateOf when.clock).year ≤ 9999) : SaysAll values (stampOf when.clock) layout.levels (namesOf path) := by
  rw [namesOf_render hpath]
  refine List.forall₂_map_right_iff.mpr (List.forall₂_same.mpr fun segment hsegment => ?_)
  have hpart : ∀ part ∈ segment, part.layable = true ∧ part.plain = true := by
    intro part hpart
    rcases mem_segmentsOf hsegment hpart with ⟨piece, -, rfl⟩ | ⟨-, hmem⟩
    · exact ⟨rfl, rfl⟩
    · exact ⟨List.all_eq_true.mp layout.layable part hmem, List.all_eq_true.mp hplain part hmem⟩
  have hname : textOf when values segment = writeName 0x30 (stampOf when.clock) values segment := by
    refine congrArg List.flatten (List.map_congr_left fun part hmem => ?_)
    exact part_write values (hpart part hmem).1 (hpart part hmem).2
  rw [hname]
  refine says_written decimals_ascii fun capture hcapture => ?_
  obtain ⟨part, hmem, hcapture⟩ := List.mem_filterMap.mp hcapture
  have hlong := (hpart part hmem).2
  rcases part with text | s | unit | n
  · cases hcapture
  · have hcapture : s.capture = some capture := hcapture
    by_cases hfield : capture.field = .year
    · rw [hfield]
      refine fits_long hcapture (by rintro rfl; cases hlong) hfield ?_
      show (dateOf when.clock).year.toNat ≤ 9999
      omega
    · exact fits_stamp when.clock hcapture hfield
  · cases hcapture
  · cases hcapture

/-- **Folders of full years and fixed widths are found again** in a zone whose clocks are never changed: in the
    years up to 9998, by a layout that does not stumble. -/
theorem plain_found {layout : PathLayout} {offset t : Int} {values : Values} {path : Text}
    (hpath : layout.render ⟨t, offset⟩ values = .ok path) (hplain : layout.parts.all Part.plain = true)
    (hyears : 1 ≤ (dateOf (t + offset * 1000000)).year ∧ (dateOf (t + offset * 1000000)).year ≤ 9998)
    (hsteady : layout.stumbles = false) {folders : Folders Text} {after before : Int} (hafter : after ≤ t)
    (hbefore : t < before) (hholds : folders.Holds [] (namesOf path)) : ∃ walked,
      layout.walk folders after before (.fixed offset) values = .ok walked ∧ walked.values.count (namesOf path) = 1 := by
  have hlate : (dateOf (t + offset * 1000000)).year ≤ 9999 := hyears.2.trans (by decide)
  have hsaid := plain_says hpath hplain hlate
  have hreads : readsBack values (.fixed offset) t layout.levels Fields.empty (namesOf path) = true :=
    readsBack_of_says ⟨hyears.1, hlate⟩ (fixed_keeps hyears.2) hsaid (of_empty _)
  have hzone : (Zone.fixed offset).offset t = offset := rfl
  rw [← hzone] at hpath
  exact found_of_readsBack hpath hreads hsteady hafter hbefore hholds

/-- The last hour of April by UTC is of May two hours to the east. -/
theorem east_found : ∃ walked, MONTHLY.walk (Folders.ofPaths [namesOf "2024/05".toList]) (daysOf ⟨2024, 4, 30⟩ * DAY)
    (daysOf ⟨2024, 5, 1⟩ * DAY) (.fixed 7200) (fun _ => none) = .ok walked ∧
      walked.values.count (namesOf "2024/05".toList) = 1 :=
  @plain_found MONTHLY 7200 (daysOf ⟨2024, 5, 1⟩ * DAY - 3600000000) (fun _ => none) "2024/05".toList (by rfl)
    (by decide) (by decide) (by decide) _ _ _ (by decide) (by decide)
    (ofPaths_holds (List.mem_singleton_self _))

end Ceres.Paths
