/-
  File:      Ceres/Paths/Order.lean
  Subject:   THE ORDER OF A WALK (`paths.py`: `PathLayout.walk`, "Folders come in time order").

  The walk sorts the entries of each folder by what is known of them, and goes through one folder after the
  other. So the folders come in time order if a folder's entries are told apart by calendar fields from the
  year down, or if one level tells all of the time.

  * `InOrder` -- the periods' starts do not decrease;
  * `Tells`, **`visit_in_order`** -- the argument, once for both; `PathLayout.atOnce`, `PathLayout.descends`;
  * **`out_of_order`**, `exists_out_of_order` -- two folders of another layout that come in the wrong order;
  * **`walk_in_order_iff`** -- the walk of a layout is in order for every tree exactly if one level tells the
    whole time, and for the trees that have one folder for each time if its levels go down the calendar;
  * `months_before_years` -- `{MM}/{yyyy}`.
-/
import Ceres.Paths.Said

namespace Ceres.Paths

open Ceres.Library Ceres.Database

/-- The folders come in the order of their periods' starts. -/
def InOrder (layout : PathLayout) (values : Values) (walked : Walked (List Text)) : Prop :=
  ∃ starts : List Int, walked.values.map (layout.startOf values) = starts.map some ∧
    starts.Pairwise (· ≤ ·)

/-! ## 1. What a layout makes known -/

theorem reads_literal (text : Text) (parts : List Part) (field : Field) :
    reads (.literal text :: parts) field = reads parts field := rfl

theorem reads_consPieces (field : Field) (texts : List Text) (segments : List (List Part)) :
    reads (consPieces texts segments).flatten field = reads segments.flatten field := by
  fun_induction consPieces texts segments with
  | case1 segments => rfl
  | case2 piece segment segments => rfl
  | case3 piece pieces segments _ ih => exact ih

theorem reads_segmentsOf (field : Field) : ∀ parts : List Part,
    reads (segmentsOf parts).flatten field = reads parts field
  | [] => rfl
  | .literal text :: rest => by
    rw [segmentsOf, reads_consPieces, reads_segmentsOf field rest, reads_literal]
  | .atom a :: rest => by
    have hrest := reads_segmentsOf field rest
    have hcons : ∀ parts, reads (.atom a :: parts) field = (decide ((Part.atom a).field = some field) || reads parts field) :=
      fun parts => List.any_cons
    rw [segmentsOf, hcons, ← hrest]
    split
    · rename_i hnil
      exact absurd hnil (segmentsOf_ne_nil rest)
    · rename_i segment segments hsegments
      rw [hsegments]
      exact hcons _

theorem readDown_knows {values : Values} : ∀ {levels : List (List Part)} {parts : List Part} {known found : Fields}
    {names : List Text}, (∀ segment ∈ levels, halved segment = true) → known.Knows (knownOf (reads parts)) →
      readDown (reader values) levels known names = some found →
        found.Knows (knownOf (reads (parts ++ levels.flatten)))
  | [], parts, known, found, [], _, hknown, h => by
    obtain rfl := Option.some.inj h
    rw [List.flatten_nil, List.append_nil]
    exact hknown
  | segment :: levels, parts, known, found, name :: names, hhalved, hknown, h => by
    obtain ⟨hfirst, hrest⟩ := List.forall_mem_cons.mp hhalved
    rw [readDown] at h
    split at h
    · rename_i middle hread
      have hmiddle := readName_knows hread hknown
      rw [learn_knownOf hfirst] at hmiddle
      rw [List.flatten_cons, ← List.append_assoc]
      exact readDown_knows hrest hmiddle h
    · cases h

theorem readDown_kept {values : Values} : ∀ {levels : List (List Part)} {known found : Fields} {names : List Text},
    readDown (reader values) levels known names = some found → known.Kept found
  | [], known, found, [], h => by
    obtain rfl := Option.some.inj h
    exact .refl known
  | segment :: levels, known, found, name :: names, h => by
    rw [readDown] at h
    split at h
    · rename_i middle hread
      exact (readName_kept hread).trans (readDown_kept h)
    · cases h

variable {field : Field} {parts : List Part}

theorem mem_calendarOf (hfield : field ∈ CALENDAR) :
    decide (field ∈ calendarOf parts) = namesField parts field := by
  rw [calendarOf, Bool.eq_iff_iff, decide_eq_true_eq, List.mem_filter]
  exact and_iff_right hfield

theorem year_of_doy {depth : Nat} (h : calendarOf parts = CALENDAR.take depth)
    (hdoy : reads parts .doy = true) : reads parts .year = true := by
  have hmonth : Field.month ∈ calendarOf parts :=
    List.mem_filter.mpr ⟨by decide, (Bool.or_eq_true _ _).mpr (.inr hdoy)⟩
  have hmem : Field.year ∈ calendarOf parts := by
    rw [h] at hmonth ⊢
    cases depth with
    | zero => cases hmonth
    | succ depth => exact List.mem_cons_self
  exact (List.mem_filter.mp hmem).2

theorem known_named (h : reads parts .doy = true → reads parts .year = true)
    (hfield : field ∈ CALENDAR) : knownOf (reads parts) field = namesField parts field := by
  have hmerged : ∀ value : Bool, (value || (reads parts .doy && reads parts .year)) =
      (value || reads parts .doy) := by
    intro value
    cases hdoy : reads parts .doy
    · rw [Bool.false_and]
    · rw [h hdoy, Bool.and_self]
  simp only [CALENDAR, List.mem_cons, List.not_mem_nil, or_false] at hfield
  rcases hfield with rfl | rfl | rfl | rfl | rfl | rfl
  · rfl
  · exact hmerged _
  · exact hmerged _
  all_goals rfl

section Layout

variable (layout : PathLayout) {values : Values}

theorem levels_halved : ∀ segment ∈ layout.levels, halved segment = true :=
  List.all_eq_true.mp layout.halves

/-- From the year down. -/
theorem calendar_take : ∃ depth ≤ 6, calendarOf layout.parts = CALENDAR.take depth ∧
    (layout.unit.isSome = true → depth ≠ 0) := by
  refine ⟨(calendarOf layout.parts).length, List.length_filter_le _ _, layout.calendar, fun hunit hzero => ?_⟩
  rw [PathLayout.unit, List.length_eq_zero_iff.mp hzero] at hunit
  cases hunit

theorem known_calendar {field : Field} (hfield : field ∈ CALENDAR) :
    knownOf (reads layout.levels.flatten) field = decide (field ∈ calendarOf layout.parts) := by
  have hreads : reads layout.levels.flatten = reads layout.parts := by
    funext field
    exact reads_segmentsOf field layout.parts
  obtain ⟨depth, -, htake, -⟩ := calendar_take layout
  rw [hreads, known_named (year_of_doy htake) hfield, mem_calendarOf hfield]

theorem depthOf_eq {fields : Fields} {depth : Nat} (hle : depth ≤ 6)
    (h : ∀ field ∈ CALENDAR, (fields field).isSome = decide (field ∈ CALENDAR.take depth)) :
    depthOf fields = depth := by
  have hyear := h .year (by decide)
  have hmonth := h .month (by decide)
  have hday := h .day (by decide)
  have hhour := h .hour (by decide)
  have hminute := h .minute (by decide)
  have hsecond := h .second (by decide)
  have hwhile : CALENDAR.takeWhile (fun field => (fields field).isSome) =
      CALENDAR.takeWhile fun field => decide (field ∈ CALENDAR.take depth) := by
    simp only [CALENDAR, List.takeWhile_cons, List.takeWhile_nil] at *
    rw [hyear, hmonth, hday, hhour, hminute, hsecond]
  unfold depthOf
  rw [hwhile]
  interval_cases depth <;> decide

theorem not_gapped {fields : Fields} {depth : Nat} (hle : depth ≤ 6) (hne : depth ≠ 0)
    (h : ∀ field ∈ CALENDAR, (fields field).isSome = decide (field ∈ CALENDAR.take depth)) : ¬ Gapped fields := by
  have hrest : ∀ field ∈ CALENDAR.drop depth, field ∈ CALENDAR ∧ field ∉ CALENDAR.take depth := by
    interval_cases depth <;> decide
  unfold Gapped
  rw [depthOf_eq hle h, List.any_eq_true]
  rintro (hzero | ⟨field, hfield, hsome⟩)
  · exact hne hzero
  · obtain ⟨hmem, hnot⟩ := hrest field hfield
    rw [h field hmem, decide_eq_false hnot] at hsome
    cases hsome

theorem period_span {fields : Fields} (hgapped : ¬ Gapped fields) (h : period .utc fields ≠ none) :
    ∃ start finish, naive fields = some start ∧ period .utc fields = some (.span start finish) := by
  rw [period_deep hgapped] at h ⊢
  cases hnaive : naive fields with
  | none =>
    rw [hnaive] at h
    exact absurd rfl h
  | some start =>
    rw [hnaive, Option.bind_some] at h
    cases hnext : nextOf (unitAt (depthOf fields)) start with
    | none =>
      rw [hnext] at h
      exact absurd rfl h
    | some finish =>
      refine ⟨start, finish, rfl, ?_⟩
      rw [Option.bind_some, hnext]
      rfl

/-- Of a path that is open to its end the period is known. -/
theorem start_of_opens {after before : Int} {names : List Text} (hunit : layout.unit.isSome = true)
    (h : (visitor values .utc after before).Opens layout.levels Fields.empty names) :
    ∃ fields start, readDown (reader values) layout.levels Fields.empty names = some fields ∧
      naive fields = some start ∧ layout.startOf values names = some start := by
  obtain ⟨fields, hfields, haccepts⟩ := opens_readDown h
  have haccepts : admits .utc after before fields = true := haccepts (segmentsOf_ne_nil _)
  have hknows : fields.Knows (knownOf (reads ([] ++ layout.levels.flatten))) :=
    readDown_knows (levels_halved layout) (fun field => by cases field <;> rfl) hfields
  obtain ⟨depth, hle, htake, hne⟩ := calendar_take layout
  have hcalendar : ∀ field ∈ CALENDAR, (fields field).isSome = decide (field ∈ CALENDAR.take depth) := by
    intro field hfield
    rw [hknows field, List.nil_append, known_calendar layout hfield, htake]
  have hgapped : ¬ Gapped fields := not_gapped hle (hne hunit) hcalendar
  have hperiod : period .utc fields ≠ none := by
    intro hnone
    unfold admits at haccepts
    rw [hnone] at haccepts
    cases haccepts
  obtain ⟨start, finish, hnaive, hspan⟩ := period_span hgapped hperiod
  have hlength : names.length = layout.levels.length := opens_length h
  refine ⟨fields, start, hfields, hnaive, ?_⟩
  unfold PathLayout.startOf PathLayout.fieldsOf
  rw [hlength, List.take_length]
  have hfields : readDown (reader values) layout.levels Fields.empty names = some fields := hfields
  rw [hfields, Option.bind_some, hspan]

end Layout

/-! ## 2. Why the folders are in order -/

theorem calendarKey_split {fields : Fields} {depth : Nat}
    (h : ∀ field ∈ CALENDAR.drop depth, fields field = none) :
    calendarKey fields = (calendarKey fields).take depth ++ (CALENDAR.drop depth).map fun _ => 0 := by
  conv_lhs => rw [← List.take_append_drop depth (calendarKey fields)]
  congr 1
  unfold calendarKey
  rw [← List.map_drop]
  refine List.map_congr_left fun field hfield => ?_
  rw [h field hfield]
  rfl

theorem calendarKey_take {fields fields' : Fields} {depth : Nat} (hkept : fields.Kept fields')
    (h : ∀ field ∈ CALENDAR.take depth, (fields field).isSome = true) :
    (calendarKey fields').take depth = (calendarKey fields).take depth := by
  unfold calendarKey
  rw [← List.map_take, ← List.map_take]
  refine List.map_congr_left fun field hfield => ?_
  obtain ⟨value, hvalue⟩ := Option.isSome_iff_exists.mp (h field hfield)
  have hlasting : ∀ field ∈ CALENDAR, field.lasting = true := by decide
  rw [hvalue, hkept field value (hlasting field (List.mem_of_mem_take hfield)) hvalue]

/-- What lies below two folders is ordered as the folders are. -/
theorem below_not_lt {child other fields fields' : Fields} {depth : Nat} (hchild : Deep child depth)
    (hother : Deep other depth) (hfields : child.Kept fields) (hfields' : other.Kept fields')
    (hkey : ¬ calendarKey other < calendarKey child)
    (hsame : calendarKey child = calendarKey other → calendarKey fields = calendarKey fields') :
    ¬ calendarKey fields' < calendarKey fields := by
  have hlength : ((calendarKey child).take depth).length = ((calendarKey other).take depth).length := by
    simp [calendarKey]
  intro hlt
  rw [← List.take_append_drop depth (calendarKey fields), ← List.take_append_drop depth (calendarKey fields'),
    calendarKey_take hfields hchild.known, calendarKey_take hfields' hother.known] at hlt
  rw [calendarKey_split hchild.unknown, calendarKey_split hother.unknown] at hkey
  rcases lt_trichotomy ((calendarKey child).take depth) ((calendarKey other).take depth) with hless | heq | hmore
  · exact lt_asymm hlt (append_lt_left _ _ hlength hless)
  · have hfull := hsame (by rw [calendarKey_split hchild.unknown, calendarKey_split hother.unknown, heq])
    rw [hfull, heq] at hlt
    exact lt_irrefl _ hlt
  · exact hkey (append_lt_left _ _ hlength.symm hmore)

theorem calendarKey_of_keyOf {child other : Text × Fields} (h : keyOf child ≤ keyOf other) :
    ¬ calendarKey other.2 < calendarKey child.2 := by
  intro hlt
  refine absurd h (not_le_of_gt (Prod.Lex.toLex_lt_toLex.mpr (.inl ?_)))
  rw [List.map_append, List.map_append]
  exact append_lt_left _ _ (by simp) hlt

def PathLayout.knownBelow (layout : PathLayout) (levels : Nat) (field : Field) : Bool :=
  knownOf (reads (layout.levels.take levels).flatten) field

theorem calendarKey_kept {fields fields' : Fields} (hkept : fields.Kept fields')
    (h : ∀ field ∈ CALENDAR, (fields' field).isSome = (fields field).isSome) :
    calendarKey fields' = calendarKey fields := by
  have hlasting : ∀ field ∈ CALENDAR, field.lasting = true := by decide
  refine List.map_congr_left fun field hfield => ?_
  have hsame := h field hfield
  cases hvalue : fields field with
  | none =>
    have hnone : fields' field = none := Option.not_isSome_iff_eq_none.mp (by rw [hsame, hvalue]; decide)
    rw [hnone]
  | some value => rw [hkept field value (hlasting field hfield) hvalue]

/-- The folders below a folder that is told from its neighbours, or tells the whole time, are in order. -/
structure Tells (layout : PathLayout) (values : Values) (folders : Folders Text) : Prop where
  /-- What is known at each level goes from the year down. -/
  deep : ∀ n ≤ layout.levels.length, ∃ depth, ∀ field ∈ CALENDAR,
    layout.knownBelow n field = decide (field ∈ CALENDAR.take depth)
  /-- Two entries of one folder are read into different times, or into whole ones. -/
  apart : ∀ done level rest folder known, layout.levels = done ++ level :: rest →
    readDown (reader values) done Fields.empty folder = some known → ∀ child other : Text × Fields,
    (∃ entries, folders.entries folder = some entries ∧ (child.1, true) ∈ entries ∧ (other.1, true) ∈ entries) →
    readName values known level child.1 = .ok (some child.2) →
    readName values known level other.1 = .ok (some other.2) → child.1 ≠ other.1 →
    calendarKey child.2 = calendarKey other.2 → ∀ field ∈ CALENDAR,
      layout.knownBelow (done.length + 1) field = layout.knownBelow layout.levels.length field

theorem readDown_length {values : Values} : ∀ {levels : List (List Part)} {known found : Fields} {names : List Text},
    readDown (reader values) levels known names = some found → names.length = levels.length
  | [], _, _, [], _ => rfl
  | segment :: levels, known, found, name :: names, h => by
    rw [readDown] at h
    split at h
    · exact congrArg (· + 1) (readDown_length h)
    · cases h

theorem readDown_next {values : Values} {done : List (List Part)} {level : List Part} {known fields found : Fields}
    {folder : List Text} {name : Text} (h : readDown (reader values) done known folder = some fields)
    (hname : readName values fields level name = .ok (some found)) :
    readDown (reader values) (done ++ [level]) known (folder ++ [name]) = some found := by
  rw [readDown_append h, readDown, show reader values level fields name = _ from hname]
  rfl

section Ordered

variable {layout : PathLayout} {values : Values} {folders : Folders Text}

theorem startOf_naive {path : List Text} {fields : Fields} {start : Int}
    (hread : readDown (reader values) layout.levels Fields.empty path = some fields)
    (h : layout.startOf values path = some start) : naive fields = some start := by
  unfold PathLayout.startOf PathLayout.fieldsOf at h
  rw [readDown_length hread, List.take_length, hread, Option.bind_some] at h
  by_cases hgapped : Gapped fields
  · rw [period_gapped hgapped] at h
    cases h
  · cases hperiod : period .utc fields with
    | none =>
      rw [hperiod] at h
      cases h
    | some span =>
      obtain ⟨first, finish, hnaive, hspan⟩ := period_span hgapped (by rw [hperiod]; simp)
      rw [hspan] at h
      obtain rfl := Option.some.inj h
      exact hnaive

theorem knows_below {done rest : List (List Part)} {folder : List Text} {known : Fields}
    (hlevels : layout.levels = done ++ rest) (h : readDown (reader values) done Fields.empty folder = some known) :
    known.Knows (layout.knownBelow done.length) := by
  have hhalved : ∀ segment ∈ done, halved segment = true := by
    intro segment hsegment
    exact levels_halved layout segment (hlevels ▸ List.mem_append_left _ hsegment)
  have hempty : Fields.empty.Knows (knownOf (reads [])) := fun field => by cases field <;> rfl
  have hknows := readDown_knows hhalved hempty h
  intro field
  rw [hknows field, PathLayout.knownBelow, hlevels, List.take_left]
  rfl

theorem deep_below {done rest : List (List Part)} {folder : List Text} {known : Fields} {depth : Nat}
    (hlevels : layout.levels = done ++ rest) (h : readDown (reader values) done Fields.empty folder = some known)
    (hdepth : ∀ field ∈ CALENDAR, layout.knownBelow done.length field = decide (field ∈ CALENDAR.take depth)) :
    Deep known depth := by
  have hknows := knows_below hlevels h
  have hnodup : ∀ field, field ∈ CALENDAR.take depth → field ∉ CALENDAR.drop depth := by
    intro field htake hdrop
    have hdisjoint := List.disjoint_take_drop (l := CALENDAR) (by decide : CALENDAR.Nodup) (le_refl depth)
    exact hdisjoint htake hdrop
  refine ⟨fun field hfield => ?_, fun field hfield => ?_⟩
  · rw [hknows field, hdepth field (List.mem_of_mem_take hfield), decide_eq_true hfield]
  · refine Option.not_isSome_iff_eq_none.mp fun hsome => ?_
    rw [hknows field, hdepth field (List.mem_of_mem_drop hfield), decide_eq_true_eq] at hsome
    exact hnodup field hsome hfield

theorem exists_starts {f : List Text → Option Int} : ∀ {paths : List (List Text)},
    (∀ path ∈ paths, ∃ start, f path = some start) →
      (paths.Pairwise fun path path' => ∀ start start', f path = some start → f path' = some start' → start ≤ start') →
        ∃ starts : List Int, paths.map f = starts.map some ∧ starts.Pairwise (· ≤ ·)
  | [], _, _ => ⟨[], rfl, .nil⟩
  | path :: paths, hstarts, hpairs => by
    obtain ⟨⟨start, hstart⟩, hrest⟩ := List.forall_mem_cons.mp hstarts
    obtain ⟨hfirst, hpairs⟩ := List.pairwise_cons.mp hpairs
    obtain ⟨starts, hmap, hsorted⟩ := exists_starts hrest hpairs
    refine ⟨start :: starts, by rw [List.map_cons, List.map_cons, hstart, hmap], .cons (fun later hlater => ?_) hsorted⟩
    have hmem : some later ∈ paths.map f := hmap ▸ List.mem_map_of_mem hlater
    obtain ⟨path', hpath', hlater⟩ := List.mem_map.mp hmem
    exact hfirst path' hpath' start later hstart hlater

/-- **A layout whose folders tell the time from the year down** is walked in order. -/
theorem visit_in_order (hunit : layout.unit.isSome = true) (htells : Tells layout values folders)
    (after before : Int) :
    InOrder layout values ((visitor values .utc after before).visit folders layout.levels [] Fields.empty) := by
  have hstarts : ∀ path ∈ ((visitor values .utc after before).visit folders layout.levels [] Fields.empty).values,
      ∃ start, layout.startOf values path = some start := by
    intro path hpath
    obtain ⟨names, rfl, hopens, -⟩ := mem_visit hpath
    obtain ⟨fields, start, -, -, hstart⟩ := start_of_opens layout hunit hopens
    exact ⟨start, hstart⟩
  have hpairs : ((visitor values .utc after before).visit folders layout.levels [] Fields.empty).values.Pairwise
      fun path path' => ∀ start start', layout.startOf values path = some start →
        layout.startOf values path' = some start' → start ≤ start' := by
    refine visit_pairwise (I := fun levels folder known => ∃ done, layout.levels = done ++ levels ∧
      readDown (reader values) done Fields.empty folder = some known) ?_ ?_ ⟨[], rfl, rfl⟩
    · rintro level levels folder known name found ⟨done, hlevels, hread⟩ hname
      exact ⟨done ++ [level], by rw [hlevels, List.append_assoc]; rfl, readDown_next hread hname⟩
    · rintro level levels folder known child other ⟨done, hlevels, hread⟩ hentries hchild hother hne hkey names
        names' hopens hopens' start start' hstart hstart'
      have hlevels' : layout.levels = (done ++ [level]) ++ levels := by rw [hlevels, List.append_assoc]; rfl
      obtain ⟨fields, hfields, -⟩ := opens_readDown hopens
      obtain ⟨fields', hfields', -⟩ := opens_readDown hopens'
      have hpath : readDown (reader values) layout.levels Fields.empty (folder ++ child.1 :: names) = some fields := by
        rw [hlevels, readDown_append hread, readDown, show reader values level known child.1 = _ from hchild]
        exact hfields
      have hpath' : readDown (reader values) layout.levels Fields.empty (folder ++ other.1 :: names') = some fields' := by
        rw [hlevels, readDown_append hread, readDown, show reader values level known other.1 = _ from hother]
        exact hfields'
      have hknows := knows_below (List.append_nil _).symm hpath
      have hknows' := knows_below (List.append_nil _).symm hpath'
      have hsome : ∀ field ∈ CALENDAR, (fields' field).isSome = (fields field).isSome :=
        fun field _ => (hknows' field).trans (hknows field).symm
      have hbelow := knows_below hlevels' (readDown_next hread hchild)
      have hbelow' := knows_below hlevels' (readDown_next hread hother)
      obtain ⟨depth, hdepth⟩ := htells.deep (done ++ [level]).length (by rw [hlevels']; simp)
      have hkept : (done ++ [level]).length = done.length + 1 → calendarKey child.2 = calendarKey other.2 →
          calendarKey fields = calendarKey fields' := by
        intro hlength hsame
        have hwhole := htells.apart done level levels folder known hlevels hread child other hentries hchild hother
          hne hsame
        have hfirst : calendarKey fields = calendarKey child.2 := by
          refine calendarKey_kept (readDown_kept hfields) fun field hfield => ?_
          rw [hknows field, hbelow field, hlength, hwhole field hfield]
        have hsecond : calendarKey fields' = calendarKey other.2 := by
          refine calendarKey_kept (readDown_kept hfields') fun field hfield => ?_
          rw [hknows' field, hbelow' field, hlength, hwhole field hfield]
        rw [hfirst, hsecond, hsame]
      have hless := below_not_lt (deep_below hlevels' (readDown_next hread hchild) hdepth)
        (deep_below hlevels' (readDown_next hread hother) hdepth) (readDown_kept hfields) (readDown_kept hfields')
        (calendarKey_of_keyOf hkey) (hkept List.length_append)
      rw [← naive_lt_iff (startOf_naive hpath' hstart') (startOf_naive hpath hstart) hsome] at hless
      exact not_lt.mp hless
  exact exists_starts hstarts hpairs

/-! ## 3. Two folders in the wrong order -/

/-- Of two folders in order, the first does not start later. -/
theorem start_le {walked : Walked (List Text)} (h : InOrder layout values walked) {path path' : List Text}
    (hpaths : List.Sublist [path, path'] walked.values) {start start' : Int}
    (hstart : layout.startOf values path = some start) (hstart' : layout.startOf values path' = some start') :
    start ≤ start' := by
  obtain ⟨starts, hmap, hsorted⟩ := h
  have hpairs : (starts.map some).Pairwise fun one two : Option Int => ∀ x y, one = some x → two = some y → x ≤ y :=
    List.pairwise_map.mpr (hsorted.imp fun hle x y hx hy => Option.some.inj hx ▸ Option.some.inj hy ▸ hle)
  have hsub := hpaths.map (layout.startOf values)
  rw [hmap] at hsub
  have hpair := List.pairwise_cons.mp (hpairs.sublist hsub)
  exact hpair.1 _ List.mem_cons_self start start' hstart hstart'

theorem unitAt_eq {unit : Field} (hunit : layout.unit = some unit) {depth : Nat} (hle : depth ≤ 6)
    (hdepth : depth ≠ 0) (htake : calendarOf layout.parts = CALENDAR.take depth) : unitAt depth = unit := by
  rw [PathLayout.unit, htake] at hunit
  clear htake
  interval_cases depth
  · exact absurd rfl hdepth
  all_goals exact Option.some.inj hunit

theorem startOf_said {unit : Field} (hunit : layout.unit = some unit) {clock : Int}
    (hyears : 1 ≤ (dateOf clock).year ∧ (dateOf clock).year ≤ 9998) {path : List Text}
    (hsaid : SaysAll values (stampOf clock) layout.levels path) :
    layout.startOf values path = some (floorOf unit clock) := by
  have hcoherent := coherent_stamp hyears.1
  have hyear : stampOf clock .year ≠ 0 := by
    show (dateOf clock).year.toNat ≠ 0
    omega
  have hopens : (visitor values .utc clock (clock + 1)).Opens layout.levels Fields.empty path :=
    opens_said hcoherent hyear (fun fields hof => admits_utc hyears hof ⟨le_rfl, by omega⟩) hsaid (of_empty _)
  obtain ⟨fields, start, hread, hnaive, hstart⟩ := start_of_opens layout (hunit ▸ rfl) hopens
  obtain ⟨found, hfound, hof⟩ := readDown_said hcoherent hyear hsaid (of_empty _)
  obtain rfl := Option.some.inj (hread.symm.trans hfound)
  obtain ⟨depth, hle, htake, hne⟩ := calendar_take layout
  have hdepth : depth ≠ 0 := hne (hunit ▸ rfl)
  have hdeep : Deep fields depth := by
    refine deep_below (List.append_nil _).symm hread fun field hfield => ?_
    rw [PathLayout.knownBelow, List.take_length, known_calendar layout hfield, htake]
  rw [naive_stamp ⟨hyears.1, hyears.2.trans (by decide)⟩ hof ⟨hdepth, hle⟩ hdeep,
    unitAt_eq hunit hle hdepth htake] at hnaive
  rw [hstart, ← Option.some.inj hnaive]

/-- **Two folders in the wrong order**, in a tree of their paths: they part by names of which the later time's
    comes first. -/
theorem out_of_order {unit : Field} (hunit : layout.unit = some unit) {early late : Int}
    (hearly : 1 ≤ (dateOf early).year ∧ (dateOf early).year ≤ 9998)
    (hlate : 1 ≤ (dateOf late).year ∧ (dateOf late).year ≤ 9998) (hlt : floorOf unit early < floorOf unit late)
    {above below : List (List Part)} {level : List Part} {common names names' : List Text} {name name' : Text}
    (hlevels : layout.levels = above ++ level :: below) (hlength : common.length = above.length)
    (hsaid : SaysAll values (stampOf late) layout.levels (common ++ name :: names))
    (hsaid' : SaysAll values (stampOf early) layout.levels (common ++ name' :: names'))
    (hkey : ∀ found found' : Fields, found.Knows (layout.knownBelow (above.length + 1)) → found.Of (stampOf late) →
      found'.Knows (layout.knownBelow (above.length + 1)) → found'.Of (stampOf early) →
        keyOf (name, found) < keyOf (name', found')) : ∃ folders after before, ¬ InOrder layout values
      ((visitor values .utc after before).visit folders layout.levels [] Fields.empty) := by
  have hcoherent : ∀ {clock : Int}, 1 ≤ (dateOf clock).year ∧ (dateOf clock).year ≤ 9998 →
      Coherent (stampOf clock) ∧ stampOf clock .year ≠ 0 := by
    intro clock hyears
    refine ⟨coherent_stamp hyears.1, ?_⟩
    show (dateOf clock).year.toNat ≠ 0
    omega
  obtain ⟨hvlate, hylate⟩ := hcoherent hlate
  obtain ⟨hvearly, hyearly⟩ := hcoherent hearly
  have haccepts : ∀ {clock : Int}, 1 ≤ (dateOf clock).year ∧ (dateOf clock).year ≤ 9998 →
      min early late ≤ clock → clock < max early late + 1 → ∀ fields : Fields, fields.Of (stampOf clock) →
        admits .utc (min early late) (max early late + 1) fields = true :=
    fun hyears hlow hhigh fields hof => admits_utc hyears hof ⟨hlow, hhigh⟩
  have hopens := opens_said hvlate hylate (haccepts hlate (by omega) (by omega)) hsaid (of_empty _)
  have hopens' := opens_said hvearly hyearly (haccepts hearly (by omega) (by omega)) hsaid' (of_empty _)
  have hall : ∀ path ∈ [common ++ name :: names, common ++ name' :: names'],
      ∃ v : Stamp, Coherent v ∧ v .year ≠ 0 ∧ SaysAll values v layout.levels path := by
    intro path hpath
    rcases List.mem_cons.mp hpath with rfl | hpath
    · exact ⟨_, hvlate, hylate, hsaid⟩
    · obtain rfl := List.mem_singleton.mp hpath
      exact ⟨_, hvearly, hyearly, hsaid'⟩
  have hraised := said_not_raised hall .utc (min early late) (max early late + 1)
  have hbelow : ∀ {v : Stamp} {name : Text} {rest : List Text} {middle found : Fields}, Coherent v → v .year ≠ 0 →
      SaysAll values v layout.levels (common ++ name :: rest) →
      readDown (reader values) above Fields.empty common = some middle →
      readName values middle level name = .ok (some found) →
        found.Knows (layout.knownBelow (above.length + 1)) ∧ found.Of v := by
    intro v name rest middle found hv hyear hsaid hmiddle hread
    have htake := List.forall₂_take above.length hsaid
    rw [hlevels, List.take_left, ← hlength, List.take_left] at htake
    obtain ⟨known, hknown, hof⟩ := readDown_said hv hyear htake (of_empty v)
    obtain rfl := Option.some.inj (hknown.symm.trans hmiddle)
    obtain ⟨found', hread', hof'⟩ := reader_said hv hyear hof (says_at (hlevels ▸ hsaid) hlength)
    obtain rfl := Option.some.inj (Except.ok.inj (hread'.symm.trans hread))
    have hlevels' : layout.levels = (above ++ [level]) ++ below := by rw [hlevels, List.append_assoc]; rfl
    have hknows := knows_below hlevels' (readDown_next hmiddle hread)
    rw [List.length_append] at hknows
    exact ⟨hknows, hof'⟩
  have hholds : (Folders.ofPaths [common ++ name :: names, common ++ name' :: names']).Holds []
      (common ++ name :: names) := ofPaths_holds (by simp)
  have hholds' : (Folders.ofPaths [common ++ name :: names, common ++ name' :: names']).Holds []
      (common ++ name' :: names') := ofPaths_holds (by simp)
  have hpair := pair_sublist (hlevels ▸ hraised) (hlevels ▸ hopens) (hlevels ▸ hopens') hholds hholds' hlength
    fun middle found found' hmiddle hread hread' => by
      obtain ⟨hknows, hof⟩ := hbelow hvlate hylate hsaid hmiddle hread
      obtain ⟨hknows', hof'⟩ := hbelow hvearly hyearly hsaid' hmiddle hread'
      exact hkey found found' hknows hof hknows' hof'
  refine ⟨Folders.ofPaths [common ++ name :: names, common ++ name' :: names'], min early late,
    max early late + 1, fun horder => ?_⟩
  rw [← hlevels] at hpair
  have hle := start_le horder hpair (startOf_said hunit hlate hsaid) (startOf_said hunit hearly hsaid')
  exact absurd hle (not_le_of_gt hlt)

end Ordered

/-! ## 4. Layouts that tell the time -/

/-- A level that reads some field. -/
def dated (segment : List Part) : Bool := segment.any fun part => part.field.isSome

/-- The first level that reads a field tells the whole time. -/
def PathLayout.atOnce (layout : PathLayout) : Bool :=
  (layout.levels.find? dated).any fun segment => decide (calendarOf segment = calendarOf layout.parts)

/-- What is known at each level goes from the year down. -/
def PathLayout.descends (layout : PathLayout) : Bool :=
  (List.range (layout.levels.length + 1)).all fun n =>
    decide (CALENDAR.filter (layout.knownBelow n) =
      CALENDAR.take (CALENDAR.filter (layout.knownBelow n)).length)

/-- No two folders of one folder are read into the same date and time. -/
def ToldApart (layout : PathLayout) (values : Values) (folders : Folders Text) : Prop :=
  ∀ folder entries name name' fields fields', folders.entries folder = some entries → (name, true) ∈ entries →
    (name', true) ∈ entries → layout.fieldsOf values (folder ++ [name]) = some fields →
    layout.fieldsOf values (folder ++ [name']) = some fields' →
    (∀ field ∈ CALENDAR, fields field = fields' field) → name = name'

variable {segment : List Part}

theorem reads_undated (h : dated segment = false) (field : Field) : reads segment field = false := by
  unfold dated at h
  unfold reads
  rw [List.any_eq_false] at h ⊢
  intro part hpart hfield
  exact h part hpart (by rw [of_decide_eq_true hfield]; rfl)

theorem reads_flatten (segments : List (List Part)) (field : Field) :
    reads segments.flatten field = segments.any fun segment => reads segment field := by
  induction segments with
  | nil => rfl
  | cons segment rest ih => rw [List.flatten_cons, reads_append, ih, List.any_cons]

theorem reads_above {above : List (List Part)} (h : ∀ segment ∈ above, dated segment = false) (field : Field) :
    reads above.flatten field = false := by
  rw [reads_flatten, List.any_eq_false]
  exact fun segment hsegment => Bool.not_eq_true _ ▸ reads_undated (h segment hsegment) field

theorem knownOf_mono {read read' : Field → Bool} (h : ∀ field, read field = true → read' field = true)
    (hknown : knownOf read field = true) : knownOf read' field = true := by
  cases field with
  | year | minute | second | doy => exact h _ hknown
  | hour12 | meridiem => cases hknown
  | hour =>
    rcases (Bool.or_eq_true _ _).mp hknown with hread | hread
    · exact (Bool.or_eq_true _ _).mpr (.inl (h _ hread))
    · exact (Bool.or_eq_true _ _).mpr (.inr (h _ hread))
  | month | day =>
    rcases (Bool.or_eq_true _ _).mp hknown with hread | hread
    · exact (Bool.or_eq_true _ _).mpr (.inl (h _ hread))
    · obtain ⟨hdoy, hyear⟩ := (Bool.and_eq_true _ _).mp hread
      exact (Bool.or_eq_true _ _).mpr (.inr ((Bool.and_eq_true _ _).mpr ⟨h _ hdoy, h _ hyear⟩))

section Conditions

variable {layout : PathLayout} {values : Values} {folders : Folders Text}

theorem knownBelow_all {field : Field} (hfield : field ∈ CALENDAR) :
    layout.knownBelow layout.levels.length field = decide (field ∈ calendarOf layout.parts) := by
  rw [PathLayout.knownBelow, List.take_length, known_calendar layout hfield]

theorem knownBelow_le {n : Nat} {field : Field} (hfield : field ∈ CALENDAR)
    (h : layout.knownBelow n field = true) : field ∈ calendarOf layout.parts := by
  have hall : layout.knownBelow layout.levels.length field = true := by
    refine knownOf_mono (fun f hf => ?_) h
    rw [List.take_length, ← List.take_append_drop n layout.levels, List.flatten_append, reads_append, hf,
      Bool.true_or]
  rw [knownBelow_all hfield] at hall
  exact of_decide_eq_true hall

theorem exists_dated (hunit : layout.unit.isSome = true) :
    ∃ above level below, layout.levels = above ++ level :: below ∧
      (∀ segment ∈ above, dated segment = false) ∧ dated level = true ∧ layout.levels.find? dated = some level := by
  have hsome : (layout.levels.find? dated).isSome = true := by
    rw [List.find?_isSome]
    obtain ⟨depth, -, htake, hne⟩ := calendar_take layout
    have hyear : Field.year ∈ calendarOf layout.parts := by
      rw [htake]
      cases depth with
      | zero => exact absurd rfl (hne hunit)
      | succ depth => exact List.mem_cons_self
    have hread : reads layout.parts .year = true := (List.mem_filter.mp hyear).2
    rw [← reads_segmentsOf, reads_flatten, List.any_eq_true] at hread
    obtain ⟨segment, hsegment, hread⟩ := hread
    refine ⟨segment, hsegment, ?_⟩
    by_contra hundated
    rw [reads_undated (Bool.not_eq_true _ ▸ hundated)] at hread
    cases hread
  obtain ⟨level, hlevel⟩ := Option.isSome_iff_exists.mp hsome
  obtain ⟨hdated, above, below, hlevels, habove⟩ := List.find?_eq_some_iff_append.mp hlevel
  exact ⟨above, level, below, hlevels, fun segment hsegment => by simpa using habove segment hsegment, hdated, hlevel⟩

theorem undated_capture {segment : List Part} (h : dated segment = false) {part : Part} (hpart : part ∈ segment) :
    part.capture = none := by
  have hfield := part_capture_field part
  have hnone : part.field = none := Option.not_isSome_iff_eq_none.mp (List.any_eq_false.mp h part hpart)
  rw [hnone] at hfield
  exact Option.map_eq_none_iff.mp hfield

theorem undated_text : ∀ {segment : List Part} {text : Text} {groups : List Text}, dated segment = false →
    ReadsAs (pieces values segment) text groups → text = (segment.map (Part.constant values)).flatten
  | [], _, _, _, .nil => rfl
  | part :: rest, text, groups, h, hread => by
    have hrest : dated rest = false := (Bool.or_eq_false_iff.mp (List.any_cons.symm.trans h)).2
    unfold pieces at hread
    rw [List.map_cons] at hread
    unfold Part.piece at hread
    rw [undated_capture h List.mem_cons_self] at hread
    cases hread with
    | literal hread => rw [undated_text hrest hread, List.map_cons, List.flatten_cons]

theorem undated_name {segment : List Part} (h : dated segment = false) {known fields : Fields} {name : Text}
    (hread : readName values known segment name = .ok (some fields)) :
    name = (segment.map (Part.constant values)).flatten := by
  unfold readName at hread
  cases hmatch : fullmatch (pieces values segment) name with
  | none =>
    rw [hmatch] at hread
    cases hread
  | some groups => exact undated_text h (reads_of_fullmatch hmatch)

theorem tells_at_once (hunit : layout.unit.isSome = true) (h : layout.atOnce = true) :
    Tells layout values folders := by
  obtain ⟨above, level, below, hlevels, habove, hdated, hfind⟩ := exists_dated hunit
  obtain ⟨depth, -, htake, -⟩ := calendar_take layout
  have hnamed : calendarOf level = calendarOf layout.parts := by
    rw [PathLayout.atOnce, hfind] at h
    exact of_decide_eq_true h
  -- up to the level nothing is known, behind it everything
  have hlow : ∀ n ≤ above.length, ∀ field ∈ CALENDAR, layout.knownBelow n field = false := by
    intro n hn field hfield
    by_contra hknown
    have hnone : ∀ f, reads (layout.levels.take n).flatten f = false := by
      rw [hlevels, List.take_append_of_le_length hn]
      exact reads_above fun segment hsegment => habove segment (List.mem_of_mem_take hsegment)
    have hempty : knownOf (fun _ => false) field = true :=
      knownOf_mono (fun f hf => by rw [hnone f] at hf; exact hf) (Bool.not_eq_false _ ▸ hknown)
    cases field <;> cases hempty
  have hhigh : ∀ n, above.length < n → ∀ field ∈ CALENDAR,
      layout.knownBelow n field = decide (field ∈ calendarOf layout.parts) := by
    intro n hn field hfield
    rw [Bool.eq_iff_iff, decide_eq_true_eq]
    refine ⟨knownBelow_le hfield, fun hmem => ?_⟩
    have hlevel : knownOf (reads level) field = true := by
      rw [known_named (year_of_doy (hnamed.trans htake)) hfield, ← mem_calendarOf hfield, hnamed]
      exact decide_eq_true hmem
    refine knownOf_mono (fun f hf => ?_) hlevel
    rw [reads_flatten, List.any_eq_true]
    refine ⟨level, ?_, hf⟩
    rw [hlevels, List.take_append, List.mem_append]
    right
    obtain ⟨more, rfl⟩ := Nat.exists_eq_add_of_lt hn
    rw [show above.length + more + 1 - above.length = more + 1 by omega]
    exact List.mem_cons_self
  refine ⟨fun n hn => ?_, ?_⟩
  · rcases Nat.lt_or_ge above.length n with hlt | hge
    · refine ⟨depth, fun field hfield => ?_⟩
      rw [hhigh n hlt field hfield, htake]
    · refine ⟨0, fun field hfield => ?_⟩
      rw [hlow n hge field hfield]
      exact (decide_eq_false (by simp)).symm
  · rintro done here rest folder known hdone - child other - hchild hother hne - field hfield
    rcases Nat.lt_or_ge done.length above.length with hlt | hge
    · have hmem : here ∈ above := by
        have hget : layout.levels[done.length]? = some here := by rw [hdone]; simp
        rw [hlevels, List.getElem?_append_left hlt] at hget
        exact List.mem_of_getElem? hget
      exact absurd ((undated_name (habove here hmem) hchild).trans (undated_name (habove here hmem) hother).symm) hne
    · rw [hhigh _ (Nat.lt_succ_of_le hge) field hfield, knownBelow_all hfield]

theorem tells_descending (h : layout.descends = true) (hapart : ToldApart layout values folders) :
    Tells layout values folders := by
  refine ⟨fun n hn => ?_, ?_⟩
  · have htake := of_decide_eq_true (List.all_eq_true.mp h n (List.mem_range.mpr (Nat.lt_succ_of_le hn)))
    refine ⟨(CALENDAR.filter (layout.knownBelow n)).length, fun field hfield => ?_⟩
    rw [Bool.eq_iff_iff, decide_eq_true_eq, ← htake, List.mem_filter]
    exact (and_iff_right hfield).symm
  · rintro done level rest folder known hlevels hfolder child other ⟨entries, hentries, hentry, hentry'⟩ hread hread'
      hne hkey
    have hlevels' : layout.levels = (done ++ [level]) ++ rest := by rw [hlevels, List.append_assoc]; rfl
    have hfields : ∀ {name : Text} {found : Fields}, readName values known level name = .ok (some found) →
        layout.fieldsOf values (folder ++ [name]) = some found := by
      intro name found hname
      have hlength : (folder ++ [name]).length = (done ++ [level]).length := by
        rw [List.length_append, List.length_append, readDown_length hfolder]
        rfl
      rw [PathLayout.fieldsOf, hlength, hlevels', List.take_left]
      exact readDown_next hfolder hname
    have hknows := knows_below hlevels' (readDown_next hfolder hread)
    have hknows' := knows_below hlevels' (readDown_next hfolder hread')
    refine absurd (hapart folder entries child.1 other.1 child.2 other.2 hentries hentry hentry' (hfields hread)
      (hfields hread') fun field hfield => ?_) hne
    have hvalue : (child.2 field).getD 0 = (other.2 field).getD 0 := List.map_inj_left.mp hkey field hfield
    have hsome : (child.2 field).isSome = (other.2 field).isSome := (hknows field).trans (hknows' field).symm
    cases hone : child.2 field <;> cases htwo : other.2 field <;> simp_all

end Conditions

/-! ## 5. A tree out of order for the other layouts -/

/-- The start of 2001. -/
def BASE : Int := daysOf ⟨2001, 1, 1⟩ * DAY

/-- A time that differs from it in one calendar field. -/
def later : Field → Int
  | .year => daysOf ⟨2002, 1, 1⟩ * DAY
  | .month => daysOf ⟨2001, 2, 1⟩ * DAY
  | .day => BASE + DAY
  | .hour => BASE + 3600000000
  | .minute => BASE + 60000000
  | .second => BASE + 1000000
  | .doy | .hour12 | .meridiem => BASE

theorem years_later : ∀ field ∈ CALENDAR, (dateOf (later field)).year = 2001 ∨ (dateOf (later field)).year = 2002 := by
  decide

theorem floor_later : ∀ depth ∈ List.range 7, ∀ field ∈ CALENDAR.take depth,
    floorOf (unitAt depth) BASE < floorOf (unitAt depth) (later field) := by
  decide

theorem names_later {field other : Field} (hfield : field ∈ CALENDAR) (hread : reads parts other = true)
    (hne : stampOf (later field) other ≠ stampOf BASE other) : namesField parts field = true := by
  simp only [CALENDAR, List.mem_cons, List.not_mem_nil, or_false] at hfield
  rcases hfield with rfl | rfl | rfl | rfl | rfl | rfl <;> cases other
  -- the fields that differ are the field itself, the day of the year and the 12-hour hour
  all_goals first
    | exact absurd (by decide) hne
    | exact hread
    | exact (Bool.or_eq_true _ _).mpr (.inl hread)
    | exact (Bool.or_eq_true _ _).mpr (.inr hread)

theorem figures_lt : ∀ {width : Nat}, width ≠ 0 → ∀ n : Nat, figures 0x30 width n < figures 0xff10 width n
  | 0, h, _ => absurd rfl h
  | width + 1, _, n => by
    have hdigit : [Char.ofNat (0x30 + n % 10)] < [Char.ofNat (0xff10 + n % 10)] := by
      have hall : ∀ d < 10, [Char.ofNat (0x30 + d)] < [Char.ofNat (0xff10 + d)] := by decide
      exact hall _ (Nat.mod_lt n (by omega))
    rw [figures, figures]
    cases width with
    | zero => exact hdigit
    | succ width =>
      exact append_lt_left _ _ (by rw [length_figures, length_figures]) (figures_lt (by omega) (n / 10))

/-- A level that reads a number. -/
def Numbered (segment : List Part) : Prop :=
  ∃ capture ∈ captures segment, ∃ least most base, capture.spelling = .digits least most base

theorem most_ne_zero {part : Part} {capture : Capture} {least most base : Nat} (h : part.capture = some capture)
    (hdigits : capture.spelling = .digits least most base) : most ≠ 0 := by
  rcases part with text | s | unit | n
  · cases h
  · cases s <;> cases h <;> cases hdigits <;> decide
  · cases h
  · cases h

theorem reads_of_capture {capture : Capture} (h : capture ∈ captures segment) :
    reads segment capture.field = true := by
  rw [← captures_any, List.any_eq_true]
  exact ⟨capture, h, decide_eq_true rfl⟩

theorem capture_mem_of_reads (h : reads segment field = true) :
    ∃ capture ∈ captures segment, capture.field = field := by
  rw [← captures_any, List.any_eq_true] at h
  obtain ⟨capture, hcapture, hfield⟩ := h
  exact ⟨capture, hcapture, of_decide_eq_true hfield⟩

/-- **The full-width digits** come behind the ASCII ones. -/
theorem write_lt {v v' : Stamp} {values : Values} : ∀ {segment : List Part},
    (∀ capture ∈ captures segment, v capture.field = v' capture.field) → Numbered segment →
      writeName 0x30 v values segment < writeName 0xff10 v' values segment
  | [], _, ⟨_, hcapture, _⟩ => absurd hcapture List.not_mem_nil
  | part :: rest, hsame, hnumbered => by
    have hcons : ∀ start (w : Stamp), writeName start w values (part :: rest) =
        part.write start w values ++ writeName start w values rest := fun _ _ => rfl
    have hrest : (∀ capture ∈ captures rest, v capture.field = v' capture.field) := by
      intro capture hcapture
      obtain ⟨other, hother, hread⟩ := List.mem_filterMap.mp hcapture
      exact hsame capture (List.mem_filterMap.mpr ⟨other, List.mem_cons_of_mem _ hother, hread⟩)
    rw [hcons, hcons]
    cases hcapture : part.capture with
    | none =>
      have hwrite : ∀ start (w : Stamp), part.write start w values = part.constant values := by
        intro start w
        rw [Part.write, hcapture]
      rw [hwrite, hwrite]
      refine append_lt_right _ (write_lt hrest ?_)
      unfold Numbered captures at hnumbered
      rwa [List.filterMap_cons_none hcapture] at hnumbered
    | some capture =>
      have hmem : capture ∈ captures (part :: rest) := List.mem_filterMap.mpr ⟨part, List.mem_cons_self, hcapture⟩
      have hwrite : ∀ start (w : Stamp), part.write start w values = capture.write start (w capture.field) := by
        intro start w
        rw [Part.write, hcapture]
      rw [hwrite, hwrite, hsame capture hmem]
      cases hspelling : capture.spelling with
      | digits least most base =>
        unfold Capture.write
        rw [hspelling]
        exact append_lt_left _ _ (by simp [length_figures])
          (figures_lt (most_ne_zero hcapture hspelling) _)
      | names words =>
        have htext : ∀ start, capture.write start (v' capture.field) = words.getD (v' capture.field - 1) [] := by
          intro start
          rw [Capture.write, hspelling]
        rw [htext, htext]
        refine append_lt_right _ (write_lt hrest ?_)
        obtain ⟨number, hnumber, least, most, base, hdigits⟩ := hnumbered
        unfold captures at hnumber
        rw [List.filterMap_cons_some hcapture] at hnumber
        rcases List.mem_cons.mp hnumber with rfl | hnumber
        · rw [hspelling] at hdigits
          cases hdigits
        · exact ⟨number, hnumber, least, most, base, hdigits⟩

theorem month_only (hhalved : halved segment = true) (hnumbered : ¬ Numbered segment)
    (h : reads segment field = true) : field = .month := by
  have hnames : ∀ {part : Part} {capture : Capture}, part.capture = some capture →
      (∃ least most base, capture.spelling = .digits least most base) ∨ capture.field = .month ∨
        capture.field = .meridiem := by
    rintro (text | s | unit | n) capture hcapture
    · cases hcapture
    · cases s <;> cases hcapture
      all_goals first
        | exact .inl ⟨_, _, _, rfl⟩
        | exact .inr (.inl rfl)
        | exact .inr (.inr rfl)
    · cases hcapture
    · cases hcapture
  have hmonth : ∀ {field : Field}, reads segment field = true → field = .month ∨ field = .meridiem := by
    intro field hread
    obtain ⟨capture, hcapture, rfl⟩ := capture_mem_of_reads hread
    obtain ⟨part, hpart, hcapture'⟩ := List.mem_filterMap.mp hcapture
    rcases hnames hcapture' with hdigits | hfield
    · exact absurd ⟨capture, hcapture, hdigits⟩ hnumbered
    · exact hfield
  rcases hmonth h with hfield | rfl
  · exact hfield
  · rw [← reads_halved hhalved] at h
    rcases hmonth h with hfield | hfield <;> cases hfield

section Counter

variable {layout : PathLayout} {values : Values}

theorem undated_written {segment : List Part} (h : dated segment = false) (start : Nat) (v : Stamp) :
    writeName start v values segment = (segment.map (Part.constant values)).flatten := by
  refine congrArg List.flatten (List.map_congr_left fun part hpart => ?_)
  rw [Part.write, undated_capture h hpart]

theorem written_out_of_order {unit : Field} (hunit : layout.unit = some unit) {early late : Int}
    (hearly : (dateOf early).year = 2001 ∨ (dateOf early).year = 2002)
    (hlate : (dateOf late).year = 2001 ∨ (dateOf late).year = 2002) (hlt : floorOf unit early < floorOf unit late)
    {above below : List (List Part)} {level : List Part} (hlevels : layout.levels = above ++ level :: below)
    (habove : ∀ segment ∈ above, dated segment = false) {start start' : Nat} (hstart : Decimals start)
    (hstart' : Decimals start')
    (hkey : ∀ found found' : Fields, found.Knows (knownOf (reads level)) → found.Of (stampOf late) →
      found'.Knows (knownOf (reads level)) → found'.Of (stampOf early) →
        keyOf (writeName start (stampOf late) values level, found) <
          keyOf (writeName start' (stampOf early) values level, found')) :
    ∃ folders after before, ¬ InOrder layout values
      ((visitor values .utc after before).visit folders layout.levels [] Fields.empty) := by
  have hcommon : ∀ start v, above.map (writeName start v values) =
      above.map fun segment => (segment.map (Part.constant values)).flatten :=
    fun start v => List.map_congr_left fun segment hsegment => undated_written (habove segment hsegment) start v
  have hwritten : ∀ start clock, layout.written start clock values =
      (above.map fun segment => (segment.map (Part.constant values)).flatten) ++
        writeName start (stampOf clock) values level :: below.map (writeName start (stampOf clock) values) := by
    intro start clock
    rw [PathLayout.written, hlevels, List.map_append, List.map_cons, hcommon]
  have hyears : ∀ {clock : Int}, (dateOf clock).year = 2001 ∨ (dateOf clock).year = 2002 →
      2000 ≤ (dateOf clock).year ∧ (dateOf clock).year < 2100 := fun h => by omega
  have hsaid := written_said layout hstart (hyears hlate) values
  have hsaid' := written_said layout hstart' (hyears hearly) values
  have hknown : layout.knownBelow (above.length + 1) = knownOf (reads level) := by
    have hreads : reads (above ++ [level]).flatten = reads level := by
      funext field
      rw [List.flatten_append, reads_append, reads_above habove, Bool.false_or, List.flatten_cons, List.flatten_nil,
        List.append_nil]
    have htake : layout.levels.take (above.length + 1) = above ++ [level] := by
      have hlevels' : layout.levels = (above ++ [level]) ++ below := by rw [hlevels, List.append_assoc]; rfl
      rw [hlevels', show above.length + 1 = (above ++ [level]).length by simp, List.take_left]
    funext field
    rw [PathLayout.knownBelow, htake, hreads]
  rw [hwritten] at hsaid hsaid'
  refine out_of_order hunit (by omega) (by omega) hlt hlevels (List.length_map _) hsaid hsaid' ?_
  rw [hknown]
  exact hkey

theorem names_known {parts : List Part} {field other : Field} (hfield : field ∈ CALENDAR)
    (hknown : knownOf (reads parts) other = true) (hne : stampOf (later field) other ≠ stampOf BASE other) :
    namesField parts field = true := by
  have hdoy : ∀ value : Bool, (value || reads parts .doy && reads parts .year) = true →
      (value || reads parts .doy) = true := by
    intro value h
    rcases (Bool.or_eq_true _ _).mp h with hvalue | hboth
    · rw [hvalue, Bool.true_or]
    · rw [((Bool.and_eq_true _ _).mp hboth).1, Bool.or_true]
  simp only [CALENDAR, List.mem_cons, List.not_mem_nil, or_false] at hfield
  rcases hfield with rfl | rfl | rfl | rfl | rfl | rfl <;> cases other
  all_goals first
    | exact absurd (by decide) hne
    | exact hknown
    | exact hdoy _ hknown
    | exact (Bool.or_eq_true _ _).mpr (.inr hknown)
    | cases hknown

theorem namesField_mono {parts parts' : List Part} (h : ∀ field, reads parts field = true → reads parts' field = true)
    {field : Field} (hnames : namesField parts field = true) : namesField parts' field = true := by
  cases field with
  | month | day | hour =>
    rcases (Bool.or_eq_true _ _).mp hnames with hread | hread
    · exact (Bool.or_eq_true _ _).mpr (.inl (h _ hread))
    · exact (Bool.or_eq_true _ _).mpr (.inr (h _ hread))
  | year | minute | second | doy | hour12 | meridiem => exact h _ hnames

theorem exists_unnamed {above below : List (List Part)} {level : List Part}
    (hlevels : layout.levels = above ++ level :: below) (hne : calendarOf level ≠ calendarOf layout.parts) :
    ∃ field ∈ calendarOf layout.parts, namesField level field = false := by
  by_contra hall
  push Not at hall
  refine hne (List.filter_congr fun field hfield => ?_)
  rw [Bool.eq_iff_iff]
  refine ⟨namesField_mono fun other hread => ?_, fun hnames => ?_⟩
  · rw [← reads_segmentsOf, show segmentsOf layout.parts = _ from hlevels, reads_flatten, List.any_eq_true]
    exact ⟨level, by simp, hread⟩
  · exact Bool.not_eq_false _ ▸ hall field (List.mem_filter.mpr ⟨hfield, hnames⟩)

/-- **A layout that does not tell the time at once** has a tree that is walked out of order. -/
theorem exists_out_of_order (hunit : layout.unit.isSome = true) (h : layout.atOnce = false) (values : Values) :
    ∃ folders after before, ¬ InOrder layout values
      ((visitor values .utc after before).visit folders layout.levels [] Fields.empty) := by
  obtain ⟨above, level, below, hlevels, habove, hdated, hfind⟩ := exists_dated hunit
  obtain ⟨depth, hle, htake, hne⟩ := calendar_take layout
  have hdepth : depth ≠ 0 := hne hunit
  obtain ⟨unit, hunit⟩ := Option.isSome_iff_exists.mp hunit
  have hfinest := unitAt_eq hunit hle hdepth htake
  have hmem : depth ∈ List.range 7 := List.mem_range.mpr (by omega)
  by_cases hnumbered : Numbered level
  · -- two kinds of digits, and a time that is later in a field the level does not name
    obtain ⟨field, hmem', hunnamed⟩ := exists_unnamed hlevels (of_decide_eq_false (by
      rw [PathLayout.atOnce, hfind] at h
      exact h))
    have hfield : field ∈ CALENDAR := List.mem_of_mem_filter hmem'
    refine written_out_of_order hunit (by decide) (years_later field hfield)
      (hfinest ▸ floor_later depth hmem field (htake ▸ hmem')) hlevels habove decimals_ascii decimals_wide
      fun found found' hknows hof hknows' hof' => ?_
    have hname : writeName 0x30 (stampOf (later field)) values level < writeName 0xff10 (stampOf BASE) values level := by
      refine write_lt (fun capture hcapture => ?_) hnumbered
      by_contra hne
      rw [names_later hfield (reads_of_capture hcapture) hne] at hunnamed
      cases hunnamed
    have hsame : ∀ other, found other = found' other := by
      intro other
      cases hvalue : found other with
      | none =>
        have hnone := hknows other
        rw [hvalue, ← hknows' other] at hnone
        exact (Option.not_isSome_iff_eq_none.mp (by rw [← hnone]; decide)).symm
      | some value =>
        have hknown := hknows other
        rw [hvalue] at hknown
        obtain ⟨value', hvalue'⟩ := Option.isSome_iff_exists.mp ((hknows' other).trans hknown.symm)
        rw [hvalue', hof other value hvalue, hof' other value' hvalue']
        refine congrArg some ?_
        by_contra hne
        rw [names_known hfield hknown.symm hne] at hunnamed
        cases hunnamed
    obtain rfl : found = found' := funext hsame
    exact Prod.Lex.toLex_lt_toLex.mpr (.inr ⟨rfl, hname⟩)
  · -- a later year whose month comes first
    have hfloor : ∀ depth ∈ List.range 7, depth ≠ 0 →
        floorOf (unitAt depth) (later .month) < floorOf (unitAt depth) (later .year) := by decide
    have hmonth : ∀ field, reads level field = true → field = .month :=
      fun _ => month_only (levels_halved layout level (hlevels ▸ by simp)) hnumbered
    refine written_out_of_order hunit (years_later .month (by decide)) (years_later .year (by decide))
      (hfinest ▸ hfloor depth hmem hdepth) hlevels habove decimals_ascii decimals_ascii
      fun found found' hknows hof hknows' hof' => ?_
    have hreads : ∀ field, reads level field = decide (field = .month) := by
      intro field
      rw [Bool.eq_iff_iff, decide_eq_true_eq]
      refine ⟨hmonth field, ?_⟩
      rintro rfl
      obtain ⟨part, hpart, hsome⟩ := List.any_eq_true.mp hdated
      obtain ⟨read, hread⟩ := Option.isSome_iff_exists.mp hsome
      have hlevel : reads level read = true := List.any_eq_true.mpr ⟨part, hpart, decide_eq_true hread⟩
      exact hmonth read hlevel ▸ hlevel
    have hknown : ∀ field, knownOf (reads level) field = decide (field = .month) := by
      intro field
      cases field <;> simp [knownOf, hreads]
    have hvalues : ∀ {found : Fields} {v : Stamp}, found.Knows (knownOf (reads level)) → found.Of v → ∀ field,
        (found field).getD 0 = if field = .month then v .month else 0 := by
      intro found v hknows hof field
      have hsome := hknows field
      rw [hknown field] at hsome
      cases hvalue : found field with
      | none =>
        rw [hvalue] at hsome
        rw [if_neg (of_decide_eq_false hsome.symm)]
        rfl
      | some value =>
        rw [hvalue] at hsome
        obtain rfl := of_decide_eq_true hsome.symm
        rw [if_pos rfl, ← hof _ value hvalue]
        rfl
    refine Prod.Lex.toLex_lt_toLex.mpr (.inl ?_)
    simp only [hvalues hknows hof, hvalues hknows' hof']
    decide

end Counter

/-! ## 6. The order of a walk -/

/-- **The order of a walk.** The folders come in time order in every tree exactly if the first level that reads
    a field tells the whole time. In a tree that has one folder for each time they also do if the levels go down
    the calendar. -/
theorem walk_in_order_iff (layout : PathLayout) (hunit : layout.unit.isSome = true) :
    ((∀ values folders after before walked, layout.walk folders after before .utc values = .ok walked →
      InOrder layout values walked) ↔ layout.atOnce = true) ∧
    (layout.descends = true → ∀ values folders after before walked, ToldApart layout values folders →
      layout.walk folders after before .utc values = .ok walked → InOrder layout values walked) := by
  refine ⟨⟨fun h => ?_, fun h values folders after before walked hwalk => ?_⟩,
    fun h values folders after before walked hapart hwalk => ?_⟩
  · by_contra hlater
    obtain ⟨folders, after, before, hdisorder⟩ :=
      exists_out_of_order hunit (Bool.not_eq_true _ ▸ hlater) fun _ => some ['x']
    have hlacks : ∀ part ∈ layout.parts, part.lacks (fun _ => some ['x']) = false := by
      rintro (text | s | unit | n) - <;> rfl
    exact hdisorder (h _ _ _ _ _ (walk_of folders after before .utc hlacks))
  · rw [walk_ok hwalk]
    exact visit_in_order hunit (tells_at_once hunit h) after before
  · rw [walk_ok hwalk]
    exact visit_in_order hunit (tells_descending h hapart) after before

/-- `{yyyy}/{MM}`. -/
def MONTHLY : PathLayout where
  parts := [.atom (.symbol .yyyy), .literal ['/'], .atom (.symbol .MM)]
  relative _ _ h := by cases h
  clock := by decide
  probe := by decide
  layable := by decide
  apart := by decide
  halves := by decide
  calendar := by decide

theorem monthly_in_order :
    (¬ ∀ values folders after before walked, MONTHLY.walk folders after before .utc values = .ok walked →
      InOrder MONTHLY values walked) ∧
    ∀ values folders after before walked, ToldApart MONTHLY values folders →
      MONTHLY.walk folders after before .utc values = .ok walked → InOrder MONTHLY values walked :=
  ⟨fun h => absurd ((walk_in_order_iff MONTHLY rfl).1.mp h) (by decide),
    (walk_in_order_iff MONTHLY rfl).2 (by decide)⟩

/-- `{MM}/{yyyy}`. -/
def BACKWARDS : PathLayout where
  parts := [.atom (.symbol .MM), .literal ['/'], .atom (.symbol .yyyy)]
  relative _ _ h := by cases h
  clock := by decide
  probe := by decide
  layable := by decide
  apart := by decide
  halves := by decide
  calendar := by decide

/-- January 2011 comes before February 2010. -/
theorem months_before_years :
    BACKWARDS.walk (Folders.ofPaths [["02".toList, "2010".toList], ["01".toList, "2011".toList]])
      (daysOf ⟨2010, 1, 1⟩ * DAY) (daysOf ⟨2012, 1, 1⟩ * DAY) .utc (fun _ => none) =
        .ok ⟨[["01".toList, "2011".toList], ["02".toList, "2010".toList]], false⟩ ∧
    ¬ InOrder BACKWARDS (fun _ => none) ⟨[["01".toList, "2011".toList], ["02".toList, "2010".toList]], false⟩ := by
  refine ⟨by rfl, fun h => ?_⟩
  have hstart : BACKWARDS.startOf (fun _ => none) ["01".toList, "2011".toList] = some (daysOf ⟨2011, 1, 1⟩ * DAY) := by
    decide
  have hstart' : BACKWARDS.startOf (fun _ => none) ["02".toList, "2010".toList] = some (daysOf ⟨2010, 2, 1⟩ * DAY) := by
    decide
  exact absurd (start_le h (List.Sublist.refl _) hstart hstart') (by decide)

end Ceres.Paths
