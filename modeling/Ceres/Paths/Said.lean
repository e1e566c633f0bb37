/-
  File:      Ceres/Paths/Said.lean
  Subject:   TREES WHOSE NAMES SAY TIMES (`paths.py`: `PathLayout.walk`).

  Each name of a path says the values of one time, as the folders of a layout's own do.

  * `SaysAll` -- such a path; **`readDown_said`**, `opens_said` -- how a walk reads it;
  * **`said_not_raised`** -- the tree of some such paths is walked without a failure;
  * `admits_utc` -- in UTC a range that holds the time leaves none of its folders out;
  * `PathLayout.written` -- the path that writes each value in full; `written_said`.
-/
import Ceres.Paths.Walk

namespace Ceres.Paths

open Ceres.Library Ceres.Database

/-! ## 1. Paths -/

abbrev SaysAll (values : Values) (v : Stamp) (levels : List (List Part)) (path : List Text) : Prop :=
  List.Forall₂ (Says values v) levels path

section Paths

variable {values : Values} {v : Stamp} (hv : Coherent v) (hyear : v .year ≠ 0)
include hv hyear

theorem reader_said {fields : Fields} {segment : List Part} {name : Text} (hof : fields.Of v)
    (hsaying : Says values v segment name) :
    ∃ found, reader values segment fields name = .ok (some found) ∧ found.Of v := by
  obtain ⟨found, hread, hfound, -⟩ := readName_said hv hof (fun _ => rfl) hsaying fun _ _ => hyear
  exact ⟨found, hread, hfound⟩

/-- **What is known of a path that says a time** is the time's. -/
theorem readDown_said {levels : List (List Part)} {names : List Text} (h : SaysAll values v levels names) :
    ∀ {known : Fields}, known.Of v →
      ∃ found, readDown (reader values) levels known names = some found ∧ found.Of v := by
  induction h with
  | nil => exact fun {known} hof => ⟨known, rfl, hof⟩
  | cons hsaying _ ih =>
    intro known hof
    obtain ⟨middle, hread, hmiddle⟩ := reader_said hv hyear hof hsaying
    obtain ⟨found, hfound, hlast⟩ := ih hmiddle
    refine ⟨found, ?_, hlast⟩
    rw [readDown, hread]
    exact hfound

theorem opens_said {zone : Zone} {after before : Int}
    (haccepts : ∀ fields : Fields, fields.Of v → admits zone after before fields = true) :
    ∀ {levels : List (List Part)} {names : List Text} {known : Fields}, SaysAll values v levels names →
      known.Of v → (visitor values zone after before).Opens levels known names
  | [], [], _, .nil, _ => trivial
  | segment :: levels, name :: names, known, .cons hsaying hrest, hof => by
    obtain ⟨found, hread, hfound⟩ := reader_said hv hyear hof hsaying
    exact ⟨found, hread, haccepts found hfound, opens_said haccepts hrest hfound⟩

end Paths

theorem says_at {values : Values} {v : Stamp} {done rest : List (List Part)} {level : List Part}
    {folder below : List Text} {name : Text} (h : SaysAll values v (done ++ level :: rest) (folder ++ name :: below))
    (hlength : folder.length = done.length) : Says values v level name := by
  have hdrop := List.forall₂_drop done.length h
  rw [List.drop_left, ← hlength, List.drop_left] at hdrop
  exact (List.forall₂_cons.mp hdrop).1

/-- **The tree of paths that say times** is walked without a failure. -/
theorem said_not_raised {values : Values} {levels : List (List Part)} {paths : List (List Text)}
    (hsaid : ∀ path ∈ paths, ∃ v : Stamp, Coherent v ∧ v .year ≠ 0 ∧ SaysAll values v levels path) (zone : Zone)
    (after before : Int) :
    ((visitor values zone after before).visit (Folders.ofPaths paths) levels [] Fields.empty).raised = false := by
  -- what is known of a folder is of the times of all paths through it
  refine not_raised (I := fun rest folder known => ∃ done, levels = done ++ rest ∧ folder.length = done.length ∧
    ∀ path ∈ paths, folder <+: path → ∀ v : Stamp, Coherent v → v .year ≠ 0 → SaysAll values v levels path →
      known.Of v) ?_ ?_ ⟨[], rfl, rfl, fun _ _ _ v _ _ _ => of_empty v⟩
  · rintro level rest folder known entries ⟨done, rfl, hlength, hof⟩ hentries entry hentry e
    obtain ⟨path, hpath, below, rfl⟩ := mem_ofPaths hentries hentry
    obtain ⟨v, hv, hyear, hsaying⟩ := hsaid _ hpath
    obtain ⟨found, hread, -⟩ := reader_said hv hyear (hof _ hpath (List.prefix_append _ _) v hv hyear hsaying)
      (says_at hsaying hlength)
    rw [show (visitor values zone after before).read level known entry.1 = .ok (some found) from hread]
    simp
  · rintro level rest folder known entries name found ⟨done, rfl, hlength, hof⟩ - - hread -
    refine ⟨done ++ [level], by simp, by simp [hlength], ?_⟩
    rintro path hpath ⟨below, rfl⟩ v hv hyear hsaying
    have hfolder : folder <+: folder ++ [name] ++ below := by
      rw [List.append_assoc]
      exact List.prefix_append _ _
    have hsaying' : SaysAll values v (done ++ level :: rest) (folder ++ name :: below) := by
      rwa [List.append_assoc] at hsaying
    obtain ⟨found', hread', hfound'⟩ := reader_said hv hyear (hof _ hpath hfolder v hv hyear hsaying)
      (says_at hsaying' hlength)
    rw [show (visitor values zone after before).read level known name = _ from hread'] at hread
    obtain rfl := Option.some.inj (Except.ok.inj hread)
    exact hfound'

/-! ## 2. Times in UTC -/

theorem unitAt_mem (depth : Nat) : unitAt depth ∈ CALENDAR := by
  unfold unitAt
  rw [List.getD_eq_getElem?_getD]
  cases h : CALENDAR[depth - 1]? with
  | none => decide
  | some unit => exact List.mem_of_getElem? h

/-- **A range that holds a time** leaves none of its folders out. -/
theorem admits_utc {fields : Fields} {clock after before : Int}
    (hyears : 1 ≤ (dateOf clock).year ∧ (dateOf clock).year ≤ 9998) (hof : fields.Of (stampOf clock))
    (hrange : after ≤ clock ∧ clock < before) : admits .utc after before fields = true := by
  unfold admits
  by_cases hgapped : Gapped fields
  · rw [period_gapped hgapped]
  · obtain ⟨finish, hfinish⟩ := exists_nextOf hyears.2 (unitAt_mem (depthOf fields))
    obtain ⟨hlow, hhigh⟩ := lt_nextOf hfinish
    rw [period_stamp ⟨hyears.1, hyears.2.trans (by decide)⟩ hof hgapped, hfinish]
    refine decide_eq_true ⟨?_, ?_⟩
    · exact hlow.trans_lt hrange.2
    · exact hrange.1.trans_lt hhigh

/-! ## 3. Values in full -/

/-- A time's values but its year are written in full. -/
theorem fits_stamp (clock : Int) {s : Symbol} {capture : Capture} (h : s.capture = some capture)
    (hfield : capture.field ≠ .year) : capture.Fits (stampOf clock capture.field) := by
  have hvalid : (dateOf clock).Valid := civil_valid (clock / DAY)
  have hmonth : 1 ≤ stampOf clock .month ∧ stampOf clock .month ≤ 12 := hvalid.month
  have hday : stampOf clock .day ≤ 31 := hvalid.day.2.trans (monthDays_range _ _).2
  obtain ⟨hhour, hminute, hsecond, -⟩ := clock_range clock
  have hordinal : stampOf clock .doy ≤ 366 := Int.toNat_le.mpr (ordinal_range hvalid).2
  have hhalf : stampOf clock .hour12 ≤ 12 := by
    show (hourOf clock + 11) % 12 + 1 ≤ 12
    omega
  have hmeridiem : 1 ≤ stampOf clock .meridiem ∧ stampOf clock .meridiem ≤ 2 := by
    show 1 ≤ (if hourOf clock < 12 then 1 else 2) ∧ (if hourOf clock < 12 then 1 else 2) ≤ 2
    split_ifs <;> decide
  cases s <;> cases h
  case yyyy | yy => exact absurd rfl hfield
  case MMM | MMMM => exact hmonth
  case a => exact hmeridiem
  all_goals refine ⟨Nat.zero_le _, ?_⟩
  case MM | M => exact hmonth.2.trans_lt (by decide)
  case dd | d => exact hday.trans_lt (by decide)
  case DDD => exact hordinal.trans_lt (by decide)
  case HH | H => exact hhour.trans (by decide)
  case hh | h => exact hhalf.trans_lt (by decide)
  case mm => exact hminute.trans (by decide)
  case ss => exact hsecond.trans (by decide)

theorem fits_year {v : Nat} (hv : 2000 ≤ v ∧ v < 2100) {s : Symbol} {capture : Capture}
    (h : s.capture = some capture) (hfield : capture.field = .year) : capture.Fits v := by
  cases s <;> cases h
  case yyyy => exact ⟨Nat.zero_le _, hv.2.trans (by decide)⟩
  case yy => exact hv
  all_goals cases hfield

/-- The path that writes the values of a time in full. -/
def PathLayout.written (layout : PathLayout) (start : Nat) (clock : Int) (values : Values) : List Text :=
  layout.levels.map (writeName start (stampOf clock) values)

theorem written_said (layout : PathLayout) {start : Nat} (hstart : Decimals start) {clock : Int}
    (hyears : 2000 ≤ (dateOf clock).year ∧ (dateOf clock).year < 2100) (values : Values) :
    SaysAll values (stampOf clock) layout.levels (layout.written start clock values) := by
  refine List.forall₂_map_right_iff.mpr (List.forall₂_same.mpr fun segment _ => says_written hstart fun capture hcapture => ?_)
  obtain ⟨part, -, hpart⟩ := List.mem_filterMap.mp hcapture
  obtain ⟨s, hs⟩ : ∃ s : Symbol, s.capture = some capture := by
    unfold Part.capture at hpart
    split at hpart
    · exact ⟨_, hpart⟩
    · cases hpart
  by_cases hfield : capture.field = .year
  · rw [hfield]
    refine fits_year ?_ hs hfield
    show 2000 ≤ (dateOf clock).year.toNat ∧ (dateOf clock).year.toNat < 2100
    omega
  · exact fits_stamp clock hs hfield

end Ceres.Paths
