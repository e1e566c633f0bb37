/-
  File:      Ceres/Console/Preview.lean
  Subject:   DROPS AND THEIR PREVIEWS (`console/app/workspace/layout.ts`: `planWidgetsMove`, `planWidgetsInsert`;
             `edit-session.ts`: `moveWidgets`, `insertWidgetsAt`; `console/app/widget-drop.ts`: `plan`, `release`).

  While a drag is held the layouts of a plan are drawn. Letting go applies another plan, made without the heights
  the rows are rendered at, and inserts new widgets one after the other.

  * `joinWidths` -- the widths of a row that widgets join; **`resolveWidths_exact`** -- what rows total;
    `fifteen_beside_one` -- a row joined that does not;
  * `planWidgetsMoveAt`, `planWidgetsInsert`, `insertWidget`, `insertWidgetsAt` -- plans and insertions;
  * `preview`, `picture` -- what is drawn of a plan, and of the workspace after;
  * `picture_moved`, `preview_moves_iff` -- a move applies its own plan, and two plans differ in heights only;
  * `insertEach_joined` -- what insertions one after the other come to; `preview_insert_iff`;
  * **`preview_is_drop_iff`** -- when the preview is the drop; `rendered_row_and_two_widgets` -- when it is not.
-/
import Ceres.Console.Rearrange
import Ceres.Console.Widths

namespace Ceres.Console.Layout

open Ceres.Library

set_option linter.unusedSectionVars false

variable {γ : Type}

/-! ## 1. Rows and what they total -/

/-- The arithmetic of widths as the code has it. -/
def exactEnv (createWidget : PagesWidgetType → Widget γ) (v7 : Nat → String) : Env γ where
  resolveWidths widths keepIndices := Widths.resolveWidths widths keepIndices .other
  filledWidths := Widths.filledWidths
  createWidget := createWidget
  v7 := v7

/-- The widths asked for in a row: an arriving widget claims at most an even share. -/
def askedWidths (held : String → Bool) (widthOf : String → ℚ) (widgets : List String) : List ℚ :=
  let share := widgetWidthSubdivisions / widgets.length
  widgets.map fun id => if held id then min share (widthOf id) else widthOf id

/-- Where the arriving widgets are. -/
def arrivedAt (column : Int) (carried : List String) : List Int :=
  (List.range carried.length).map fun offset : Nat => column + offset

def joinWidths (env : Env γ) (held : String → Bool) (widthOf : String → ℚ) (destination : List String)
    (column : Int) (carried : List String) : List (String × ℚ) :=
  let widgets := splice destination column carried
  widgets.zip (env.resolveWidths (askedWidths held widthOf widgets) (arrivedAt column carried))

theorem mem_keep_of_not_adjusted {n index : Nat} {keepIndices : List Int} (hindex : index < n)
    (h : index ∉ Widths.adjustedIndices n keepIndices .other) : (index : Int) ∈ keepIndices := by
  have hor : ∀ adjusted : List Nat, index ∉ (if adjusted = [] then List.range n else adjusted) → index ∉ adjusted := by
    intro adjusted hno hmem
    rw [if_neg (List.ne_nil_of_mem hmem)] at hno
    exact hno hmem
  have hno := hor _ h
  split at hno
  · exact absurd (List.mem_range.mpr hindex) hno
  · by_contra hkeep
    refine hno (List.mem_filter.mpr ⟨List.mem_range.mpr hindex, ?_⟩)
    simp [hkeep]

theorem mem_carried_of_arrived {destination carried : List String} {column : Int} (hcolumn : 0 ≤ column) {index : Nat}
    {id : String} (hid : (splice destination column carried)[index]? = some id)
    (harrived : (index : Int) ∈ arrivedAt column carried) : id ∈ carried := by
  obtain ⟨offset, hoffset, hindex⟩ := List.mem_map.mp harrived
  have hoffset' := List.mem_range.mp hoffset
  unfold splice at hid
  dsimp only at hid
  rw [if_neg (not_lt.mpr hcolumn), List.append_assoc,
    List.getElem?_append_right (by rw [List.length_take]; omega), List.length_take] at hid
  by_cases hbeyond : (destination.length : Int) < column
  · have hdrop : destination.drop (min column.toNat destination.length) = [] := List.drop_eq_nil_of_le (by omega)
    rw [hdrop, List.append_nil] at hid
    exact List.mem_of_getElem? hid
  · rw [List.getElem?_append_left (by omega)] at hid
    exact List.mem_of_getElem? hid

/-- The arriving widgets and a unit for each of the others fit in the row. -/
theorem least_asked {held : String → Bool} {widthOf : String → ℚ} {destination carried : List String} {column : Int}
    (hcolumn : 0 ≤ column) (hheld : ∀ id ∈ carried, held id = true)
    (hlength : (splice destination column carried).length ≤ 120) :
    Widths.least id (Widths.start (askedWidths held widthOf (splice destination column carried))
      (arrivedAt column carried) .other) ≤ 120 := by
  generalize hwidgets : splice destination column carried = widgets at hlength
  by_cases hne : widgets = []
  · subst hne
    simp [askedWidths, Widths.start, Widths.marked, Widths.least]
  have hpositive : (0 : ℚ) < widgets.length := by exact_mod_cast List.length_pos_iff.mpr hne
  have hshare : (1 : ℚ) ≤ widgetWidthSubdivisions / widgets.length := by
    have hle : (widgets.length : ℚ) ≤ 120 := by exact_mod_cast hlength
    rw [le_div_iff₀ hpositive, one_mul]
    exact hle
  have hasked : (askedWidths held widthOf widgets).length = widgets.length := List.length_map _
  have hcells : ∀ cell ∈ Widths.start (askedWidths held widthOf widgets) (arrivedAt column carried) .other,
      (if cell.2 then 1 else id cell.1) ≤ widgetWidthSubdivisions / widgets.length := by
    intro cell hcell
    obtain ⟨⟨width, index⟩, hentry, rfl⟩ := List.mem_map.mp hcell
    dsimp only
    split
    · exact hshare
    · rename_i hfixed
      rw [List.contains_iff_mem, hasked] at hfixed
      have hwidth := List.mk_mem_zipIdx_iff_getElem?.mp hentry
      have hindex : index < widgets.length := by
        rw [← hasked]
        exact (List.getElem?_eq_some_iff.mp hwidth).1
      have harrived := mem_keep_of_not_adjusted hindex hfixed
      unfold askedWidths at hwidth
      rw [List.getElem?_map] at hwidth
      obtain ⟨widget, hwidget, rfl⟩ := Option.map_eq_some_iff.mp hwidth
      have hcarried := mem_carried_of_arrived hcolumn (hwidgets ▸ hwidget) harrived
      rw [if_pos (hheld widget hcarried)]
      exact max_le (min_le_left _ _) hshare
  unfold Widths.least
  refine (List.sum_le_card_nsmul _ (widgetWidthSubdivisions / widgets.length) ?_).trans (le_of_eq ?_)
  · intro units hunits
    obtain ⟨cell, hcell, rfl⟩ := List.mem_map.mp hunits
    exact hcells cell hcell
  · rw [List.length_map, Widths.start, Widths.marked, List.length_map, List.length_zipIdx, hasked, nsmul_eq_mul,
      mul_div_cancel₀ _ hpositive.ne']
    rfl

/-- **What rows total.** Resolved widths are at least 1, and whole unless the row was full already; they total 120 if
    nothing is kept, or if the fixed widths and a unit for each other fit, in exact and in whole units; fixed whole
    widths stay. So a row that resolves all its widths totals 120, and a row joined does if the arriving widths in
    whole units leave a unit for each of the others. -/
theorem resolveWidths_exact :
    (∀ (widths : List ℚ) (keepIndices : List Int) (adjustMode : Widths.AdjustMode), widths ≠ [] → widths.length ≤ 120 →
      (Widths.resolveWidths widths keepIndices adjustMode).length = widths.length ∧
      (∀ width ∈ Widths.resolveWidths widths keepIndices adjustMode, 1 ≤ width) ∧
      (¬ Widths.Full widths → ∀ width ∈ Widths.resolveWidths widths keepIndices adjustMode,
        ∃ units : Int, width = units) ∧
      ((∀ index ∈ keepIndices, index < 0) ∨
        (Widths.least id (Widths.start widths keepIndices adjustMode) ≤ 120 ∧
          Widths.least (fun width => Widths.round width) (Widths.start widths keepIndices adjustMode) ≤ 120) →
        (Widths.resolveWidths widths keepIndices adjustMode).sum = 120) ∧
      ∀ (index : Nat) (units : Int), 1 ≤ units → widths[index]? = some (units : ℚ) →
        index ∉ Widths.adjustedIndices widths.length keepIndices adjustMode →
        (Widths.resolveWidths widths keepIndices adjustMode)[index]? = some (units : ℚ)) ∧
    ∀ (createWidget : PagesWidgetType → Widget γ) (v7 : Nat → String),
      (∀ (store : Store γ) (ids : List String), ids ≠ [] → ids.length ≤ 120 →
        ((resolved (exactEnv createWidget v7) store ids).map Prod.snd).sum = 120) ∧
      ∀ (held : String → Bool) (widthOf : String → ℚ) (destination carried : List String) (column : Int),
        0 ≤ column → carried ≠ [] → (∀ id ∈ carried, held id = true) →
        (splice destination column carried).length ≤ 120 →
        Widths.least (fun width => Widths.round width) (Widths.start
          (askedWidths held widthOf (splice destination column carried)) (arrivedAt column carried) .other) ≤ 120 →
        ((joinWidths (exactEnv createWidget v7) held widthOf destination column carried).map Prod.snd).sum = 120 := by
  have hunkept : ∀ (widths : List ℚ) (keepIndices : List Int) (adjustMode : Widths.AdjustMode), widths ≠ [] →
      widths.length ≤ 120 → (∀ index ∈ keepIndices, index < 0) →
      (Widths.resolveWidths widths keepIndices adjustMode).sum = 120 := by
    intro widths keepIndices adjustMode hne hlength hkept
    have hlength' : (widths.length : ℚ) ≤ 120 := by exact_mod_cast hlength
    exact Widths.resolveWidths_sum hne (Widths.least_start_of_unkept hkept ▸ hlength')
      (Widths.least_start_of_unkept hkept ▸ hlength')
  refine ⟨fun widths keepIndices adjustMode hne hlength => ⟨Widths.length_resolveWidths, Widths.resolveWidths_floor,
    Widths.resolveWidths_integer, fun h => ?_, fun index units hunits hwidth hfixed =>
      Widths.resolveWidths_kept hunits hwidth hfixed⟩, fun createWidget v7 => ⟨fun store ids hne hlength => ?_,
    fun held widthOf destination carried column hcolumn hne hheld hlength hround => ?_⟩⟩
  · rcases h with hkept | ⟨hexact, hround⟩
    · exact hunkept widths keepIndices adjustMode hne hlength hkept
    · exact Widths.resolveWidths_sum hne hexact hround
  · unfold resolved
    rw [List.map_snd_zip (by
      show (Widths.resolveWidths _ _ _).length ≤ _
      rw [Widths.length_resolveWidths, List.length_map])]
    exact hunkept _ [] .other (by simpa using hne) (by simpa using hlength) (by simp)
  · have hwidgets : askedWidths held widthOf (splice destination column carried) ≠ [] := by
      unfold askedWidths splice
      simp [hne]
    unfold joinWidths
    dsimp only
    rw [List.map_snd_zip (by
      show (Widths.resolveWidths _ _ _).length ≤ _
      rw [Widths.length_resolveWidths, askedWidths, List.length_map])]
    exact Widths.resolveWidths_sum hwidgets (least_asked hcolumn hheld hlength) hround

/-- The code's arithmetic, with widgets that hold nothing. -/
def plainEnv : Env Unit := exactEnv (fun type => ⟨some type, "", 120, false, [], ()⟩) Nat.repr

/-- Two widgets of 120 units join one of 120: each takes 40. -/
theorem two_join_one :
    ((joinWidths plainEnv (fun id => decide (id ≠ "a")) (fun _ => 120) ["a"] 1 ["b", "c"]).map Prod.snd).sum = 120 :=
  (resolveWidths_exact.2 _ _).2 _ _ _ _ _ (by decide) (by decide) (by decide) (by decide) (by decide +kernel)

/-- Fifteen widgets of 120 units join one of 120: each share of 7.5 is rounded up, and the row totals 121. Where every
    width is kept all of them are adjusted, and a row that is full keeps its fractions. -/
theorem fifteen_beside_one :
    ((joinWidths plainEnv (fun id => decide (id ≠ "a")) (fun _ => 120) ["a"] 1 ((List.range 15).map Nat.repr)).map
      Prod.snd).sum = 121 ∧
    Widths.resolveWidths [10, 20] [0, 1] .other = [55, 65] ∧
    Widths.resolveWidths [121 / 2, 119 / 2] [] .other = [121 / 2, 119 / 2] := by
  decide +kernel

/-! ## 2. Drops -/

/-- How tall a kind of widget opens, and how tall it has to be. -/
structure Registry (γ : Type) where
  initialHeight : Widget γ → ℚ
  widgetMinHeight : Widget γ → ℚ

variable (env : Env γ) (registry : Registry γ) (store : Store γ)

/-- The rows a drop opens, with the height a row renders at. -/
def openedRowsAt (heightOf : WidgetRow → ℚ) (groups : List Group) : List WidgetRow :=
  groups.zipIdx.map fun entry => { openedRow env entry.1 entry.2 with height := heightOf entry.1.row }

/-- `planWidgetsMove` with `heightOf`, the height that a widget leaving a row carries away. -/
def planWidgetsMoveAt (heightOf : WidgetRow → ℚ) (ids : List String) (placement : Option WidgetPlacement) :
    Option WidgetMovePlan :=
  match store.layouts.find? fun entry => entry.2.any fun row => !(taken ids row).isEmpty with
  | none => none
  | some (sourceId, source) =>
    let groups := groupsOf ids source
    let kept := keptRows ids source
    let widths := groups.flatMap fun group => resolved env store group.staying
    match placement with
    | none => some ⟨[(sourceId, kept)], assign widths⟩
    | some placement =>
      let carried := groups.flatMap Group.taken
      match store.layoutsWithin carried with
      | none => none
      | some within =>
        if within.contains placement.layout then none
        else
          let base := if placement.layout = sourceId then some kept
            else Dict.get store.layouts placement.layout
          match base with
          | none => none
          | some target =>
            match placement.column with
            | none =>
              some ⟨planned sourceId kept placement.layout
                  (splice target placement.row (openedRowsAt env heightOf groups)),
                assign (widths ++ groups.flatMap fun group => resolved env store group.taken)⟩
            | some column =>
              match element target placement.row with
              | none => none
              | some destination =>
                let row := { destination with
                  widgets := splice destination.widgets column carried
                  height := (groups.map fun group => heightOf group.row).foldl max destination.height }
                some ⟨planned sourceId kept placement.layout (target.set placement.row.toNat row),
                  assign (widths ++
                    joinWidths env ids.contains store.widthOf destination.widgets column carried)⟩

/-- What is drawn while widgets are held: the heights are those the rows are shown at. -/
def planWidgetsMoveShown (shown : Dict String ℚ) (ids : List String) (placement : Option WidgetPlacement) :
    Option WidgetMovePlan :=
  planWidgetsMoveAt env store (fun row => round ((Dict.get shown row.id).getD row.height)) ids placement

/-- What is applied is planned at the stored heights. -/
theorem planWidgetsMove_eq (ids : List String) (placement : Option WidgetPlacement) :
    planWidgetsMove env store ids placement = planWidgetsMoveAt env store (fun row => round row.height) ids placement := by
  have hkeep : ∀ (column : Int) (carried : List String),
      ((List.range carried.length).map fun offset => column + offset) = arrivedAt column carried := by
    intro column carried
    show ((List.range carried.length).flatMap fun offset : Nat => [(offset : Int)]).map (fun offset => column + offset) = _
    rw [← List.map_eq_flatMap, List.map_map]
    rfl
  unfold planWidgetsMove planWidgetsMoveAt joinWidths askedWidths
  simp only [hkeep]
  rfl

/-- `Math.max` of a list that is not empty. -/
def highest (heights : List ℚ) : ℚ := heights.max?.getD 0

/-- Work out the layouts that inserting `widgets` at `placement` produces, changing nothing. -/
def planWidgetsInsert (widgets : List (String × Widget γ)) (placement : Option WidgetPlacement) :
    Option WidgetMovePlan :=
  match placement with
  | none => none
  | some placement =>
    if widgets = [] then none
    else
      let ids := widgets.map Prod.fst
      match Dict.get store.layouts placement.layout with
      | none => none
      | some target =>
        match placement.column with
        | none =>
          let opened : WidgetRow :=
            ⟨env.v7 0, highest (widgets.map fun entry => registry.initialHeight entry.2), false, ids⟩
          some ⟨[(placement.layout, splice target placement.row [opened])],
            assign (ids.zip (env.resolveWidths (widgets.map fun entry => entry.2.width) []))⟩
        | some column =>
          match element target placement.row with
          | none => none
          | some destination =>
            let row := { destination with
              widgets := splice destination.widgets column ids
              height := (widgets.map fun entry => registry.widgetMinHeight entry.2).foldl max destination.height }
            let widthOf := fun id => ((Dict.get widgets id).map Widget.width).getD (store.widthOf id)
            some ⟨[(placement.layout, target.set placement.row.toNat row)],
              assign (joinWidths env ids.contains widthOf destination.widgets column ids)⟩

/-- `insertWidget`: one widget, at a share of the row it joins or in a row of its own. -/
def insertWidget (entry : String × Widget γ) (row column : Int) (layout : String) : Store γ :=
  match Dict.get store.layouts layout with
  | none => store
  | some rows =>
    let row := min (rows.length : Int) row
    let found := element rows row
    let widgets := splice ((found.map WidgetRow.widgets).getD []) column [entry.1]
    let share := widgetWidthSubdivisions / widgets.length
    let asked := widgets.map fun id => if id = entry.1 then min share entry.2.width else store.widthOf id
    let widths := widgets.zip (env.resolveWidths asked [(widgets.idxOf entry.1 : Int)])
    let opened : WidgetRow := ⟨env.v7 0, registry.initialHeight entry.2, false, widgets⟩
    { layouts := Dict.set store.layouts layout
        (if row < 0 then opened :: rows
        else
          match found with
          | none => rows ++ [opened]
          | some destination => rows.set row.toNat { destination with
              height := max destination.height (registry.widgetMinHeight entry.2)
              widgets := widgets })
      widgets := withWidths (store.widgets ++ [entry]) (assign widths) }

/-- The widgets of a drop one after the other, each a column further. -/
def insertEach : List (String × Widget γ) → Int → Int → String → Store γ → Store γ
  | [], _, _, _, store => store
  | entry :: rest, row, column, layout, store =>
    insertEach rest row (column + 1) layout (insertWidget env registry store entry row column layout)

/-- `insertWidgetsAt`. -/
def insertWidgetsAt (widgets : List (String × Widget γ)) (placement : WidgetPlacement) : Store γ :=
  if widgets = [] then store
  else
    match placement.column with
    | some column => insertEach env registry widgets placement.row column placement.layout store
    | none =>
      match Dict.get store.layouts placement.layout with
      | none => store
      | some rows =>
        let ids := widgets.map Prod.fst
        let widths := ids.zip (env.resolveWidths (widgets.map fun entry => entry.2.width) [])
        let index := (max 0 (min (rows.length : Int) placement.row)).toNat
        let opened : WidgetRow :=
          ⟨env.v7 0, highest (widgets.map fun entry => registry.initialHeight entry.2), false, ids⟩
        { layouts := Dict.set store.layouts placement.layout (rows.take index ++ opened :: rows.drop index)
          widgets := withWidths (store.widgets ++ widgets) (assign widths) }

/-! ## 3. What is drawn -/

structure DrawnRow where
  id : String
  height : ℚ
  collapsed : Bool
  widgets : List (String × ℚ)
  deriving DecidableEq

def drawn (widthOf : String → ℚ) (row : WidgetRow) : DrawnRow :=
  ⟨row.id, row.height, row.collapsed, row.widgets.map fun id => (id, widthOf id)⟩

/-- A layout as the workspace has it. -/
def picture (layout : String) : List DrawnRow := (store.rowsOf layout).map (drawn store.widthOf)

def preview (arriving : List (String × Widget γ)) (plan : Option WidgetMovePlan) (layout : String) : List DrawnRow :=
  ((plan.bind fun plan => Dict.get plan.layouts layout).getD (store.rowsOf layout)).map
    (drawn fun id => (plan.bind fun plan => Dict.get plan.widths id).getD
      (((Dict.get arriving id).map Widget.width).getD (store.widthOf id)))

/-! ## 4. Moves -/

/-- Where a move lands, without the heights. -/
structure Landing where
  sourceId : String
  kept : List WidgetRow
  groups : List Group
  base : List WidgetRow
  /-- The row that is joined, and the column; `none` opens rows. -/
  joined : Option (WidgetRow × Int)

def landing (ids : List String) (placement : WidgetPlacement) : Option Landing :=
  match store.layouts.find? fun entry => entry.2.any fun row => !(taken ids row).isEmpty with
  | none => none
  | some (sourceId, source) =>
    match store.layoutsWithin ((groupsOf ids source).flatMap Group.taken) with
    | none => none
    | some within =>
      if within.contains placement.layout then none
      else
        let base := if placement.layout = sourceId then some (keptRows ids source)
          else Dict.get store.layouts placement.layout
        match base with
        | none => none
        | some target =>
          match placement.column with
          | none => some ⟨sourceId, keptRows ids source, groupsOf ids source, target, none⟩
          | some column =>
            match element target placement.row with
            | none => none
            | some destination =>
              some ⟨sourceId, keptRows ids source, groupsOf ids source, target, some (destination, column)⟩

namespace Landing

def carried (l : Landing) : List String := l.groups.flatMap Group.taken

/-- The rows of the layout it lands in. -/
def target (heightOf : WidgetRow → ℚ) (row : Int) (l : Landing) : List WidgetRow :=
  match l.joined with
  | none => splice l.base row (openedRowsAt env heightOf l.groups)
  | some (destination, column) => l.base.set row.toNat { destination with
      widgets := splice destination.widgets column l.carried
      height := (l.groups.map fun group => heightOf group.row).foldl max destination.height }

def widths (ids : List String) (l : Landing) : List (String × ℚ) :=
  (l.groups.flatMap fun group => resolved env store group.staying) ++
    match l.joined with
    | none => l.groups.flatMap fun group => resolved env store group.taken
    | some (destination, column) => joinWidths env ids.contains store.widthOf destination.widgets column l.carried

/-- Two ways of measuring rows give the rows of a drop the same heights. -/
def SameHeights (heightOf heightOf' : WidgetRow → ℚ) (l : Landing) : Prop :=
  match l.joined with
  | none => ∀ group ∈ l.groups, heightOf group.row = heightOf' group.row
  | some (destination, _) => (l.groups.map fun group => heightOf group.row).foldl max destination.height =
      (l.groups.map fun group => heightOf' group.row).foldl max destination.height

end Landing

theorem planWidgetsMoveAt_eq (heightOf : WidgetRow → ℚ) (ids : List String) (placement : WidgetPlacement) :
    planWidgetsMoveAt env store heightOf ids (some placement) = (landing store ids placement).map fun l =>
      ⟨planned l.sourceId l.kept placement.layout (l.target env heightOf placement.row),
        assign (l.widths env store ids)⟩ := by
  unfold planWidgetsMoveAt landing
  cases store.layouts.find? fun entry => entry.2.any fun row => !(taken ids row).isEmpty with
  | none => rfl
  | some found =>
    dsimp only
    cases store.layoutsWithin ((groupsOf ids found.2).flatMap Group.taken) with
    | none => rfl
    | some within =>
      dsimp only
      split
      · rfl
      · generalize (if placement.layout = found.1 then some (keptRows ids found.2)
          else Dict.get store.layouts placement.layout) = base
        cases base with
        | none => rfl
        | some target =>
          dsimp only
          cases placement.column with
          | none => rfl
          | some column =>
            dsimp only
            cases element target placement.row with
            | none => rfl
            | some destination => rfl

variable {env store}

theorem get_planned (sourceId : String) (kept target : List WidgetRow) (layout other : String) :
    Dict.get (planned sourceId kept layout target) other =
      if layout = other then some target else if sourceId = other then some kept else none := by
  unfold planned
  by_cases hsame : layout = sourceId
  · rw [if_pos hsame, Dict.get_cons, Dict.get_nil, ← hsame]
    split
    · rfl
    · rfl
  · rw [if_neg hsame, Dict.get_cons, Dict.get_cons, Dict.get_nil]
    dsimp only
    by_cases hother : layout = other
    · rw [if_neg (fun h => hsame (hother.trans h.symm)), if_pos hother, if_pos hother]
    · rw [if_neg hother, if_neg hother]

theorem splice_map {α β : Type} (f : α → β) (list : List α) (start : Int) (added : List α) :
    (splice list start added).map f = splice (list.map f) start (added.map f) := by
  simp only [splice, List.map_append, List.map_take, List.map_drop, List.length_map]

theorem splice_inj {α : Type} (list : List α) (start : Int) {added other : List α} :
    splice list start added = splice list start other ↔ added = other := by
  unfold splice
  rw [List.append_left_inj, List.append_right_inj]

theorem element_lt {α : Type} {list : List α} {index : Int} {a : α} (h : element list index = some a) :
    0 ≤ index ∧ list[index.toNat]? = some a := by
  unfold element at h
  split at h
  · cases h
  · rename_i hindex
    exact ⟨not_lt.mp hindex, h⟩

theorem set_inj {α : Type} {list : List α} {index : Nat} (hindex : index < list.length) {a b : α} :
    list.set index a = list.set index b ↔ a = b := by
  refine ⟨fun h => ?_, fun h => h ▸ rfl⟩
  have hget := congrArg (fun list => list[index]?) h
  simpa [hindex] using hget

variable {placement : WidgetPlacement}

theorem landing_joined {ids : List String} {l : Landing} (h : landing store ids placement = some l)
    {destination : WidgetRow} {column : Int}
    (hjoined : l.joined = some (destination, column)) : element l.base placement.row = some destination := by
  unfold landing at h
  split at h
  · cases h
  · split at h
    · cases h
    · split at h
      · cases h
      · dsimp only at h
        split at h
        · cases h
        · split at h
          · cases h
            cases hjoined
          · split at h
            · cases h
            · rename_i hdestination
              cases h
              cases hjoined
              exact hdestination

/-- **Two plans of a move** draw the same exactly if they give the rows of the drop the same heights. -/
theorem target_drawn_iff {ids : List String} {l : Landing} (h : landing store ids placement = some l)
    (heightOf heightOf' : WidgetRow → ℚ) (widthOf : String → ℚ) :
    (l.target env heightOf placement.row).map (drawn widthOf) =
        (l.target env heightOf' placement.row).map (drawn widthOf) ↔ l.SameHeights heightOf heightOf' := by
  unfold Landing.target Landing.SameHeights
  cases hjoined : l.joined with
  | none =>
    dsimp only
    rw [splice_map, splice_map, splice_inj]
    unfold openedRowsAt
    rw [List.map_map, List.map_map, List.map_inj_left]
    constructor
    · intro heights group hgroup
      obtain ⟨i, hi⟩ := List.mem_iff_getElem?.mp hgroup
      exact congrArg DrawnRow.height (heights (group, i) (List.mem_zipIdx_iff_getElem?.mpr hi))
    · intro heights entry hentry
      have hheight := heights entry.1 (List.fst_mem_of_mem_zipIdx hentry)
      simp only [Function.comp_apply, drawn, hheight]
  | some found =>
    obtain ⟨destination, column⟩ := found
    dsimp only
    obtain ⟨-, hrow⟩ := element_lt (landing_joined h hjoined)
    have hlt : placement.row.toNat < (l.base.map (drawn widthOf)).length := by
      rw [List.length_map]
      exact (List.getElem?_eq_some_iff.mp hrow).1
    rw [List.map_set, List.map_set, set_inj hlt]
    exact ⟨fun hdrawn => congrArg DrawnRow.height hdrawn, fun hheight => by rw [hheight]⟩

theorem preview_moves_iff (ids : List String) (placement : WidgetPlacement) (heightOf heightOf' : WidgetRow → ℚ) :
    (∀ layout, preview store [] (planWidgetsMoveAt env store heightOf ids (some placement)) layout =
        preview store [] (planWidgetsMoveAt env store heightOf' ids (some placement)) layout) ↔
      ∀ l, landing store ids placement = some l → l.SameHeights heightOf heightOf' := by
  rw [planWidgetsMoveAt_eq, planWidgetsMoveAt_eq]
  cases hlanding : landing store ids placement with
  | none => exact iff_of_true (fun _ => rfl) fun l hl => by cases hl
  | some l =>
    have hone : (∀ l', some l = some l' → l'.SameHeights heightOf heightOf') ↔ l.SameHeights heightOf heightOf' :=
      ⟨fun hall => hall l rfl, fun hl l' heq => Option.some.inj heq ▸ hl⟩
    rw [hone]
    unfold preview
    simp only [Option.map_some, Option.bind_some, get_planned]
    constructor
    · intro hpreview
      have hlayout := hpreview placement.layout
      rw [if_pos rfl, if_pos rfl, Option.getD_some, Option.getD_some] at hlayout
      exact (target_drawn_iff hlanding heightOf heightOf' _).mp hlayout
    · intro hheights layout
      by_cases hlayout : placement.layout = layout
      · rw [if_pos hlayout, if_pos hlayout, Option.getD_some, Option.getD_some]
        exact (target_drawn_iff hlanding heightOf heightOf' _).mpr hheights
      · rw [if_neg hlayout, if_neg hlayout]

theorem get_foldl_withRows (entries : List (String × List WidgetRow)) : ∀ (layouts : Dict String (List WidgetRow)),
    (entries.map Prod.fst).Nodup → (∀ entry ∈ entries, (Dict.get layouts entry.1).isSome = true) →
    (∀ entry ∈ entries, ∀ row ∈ entry.2, ∀ id ∈ row.widgets, id ∈ Dict.keys store.widgets) → ∀ layout,
      Dict.get (entries.foldl (withRows store) layouts) layout =
        (Dict.get entries layout).or (Dict.get layouts layout) := by
  induction entries with
  | nil => exact fun _ _ _ _ _ => rfl
  | cons entry rest ih =>
    intro layouts hnodup hfound hids layout
    obtain ⟨hnot, hnodup⟩ := List.nodup_cons.mp hnodup
    obtain ⟨hentry, hrest⟩ := List.forall_mem_cons.mp hfound
    obtain ⟨hrow, hids⟩ := List.forall_mem_cons.mp hids
    obtain ⟨old, hold⟩ := Option.isSome_iff_exists.mp hentry
    have hset : withRows store layouts entry = Dict.set layouts entry.1 entry.2 := withRows_eq hold hrow
    have hfound' : ∀ later ∈ rest, (Dict.get (Dict.set layouts entry.1 entry.2) later.1).isSome = true := by
      intro later hlater
      rw [Dict.get_set]
      split
      · rfl
      · exact hrest later hlater
    rw [List.foldl_cons, hset, ih _ hnodup hfound' hids, Dict.get_set, Dict.get_cons]
    by_cases hlayout : entry.1 = layout
    · have habsent : Dict.get rest layout = none := Dict.get_eq_none_iff.mpr (hlayout ▸ hnot)
      rw [if_pos hlayout, if_pos hlayout, habsent]
      rfl
    · rw [if_neg hlayout, if_neg hlayout]

theorem Wf.mem_widgets (hwf : Wf store) {layout id : String} {row : WidgetRow} (hrow : row ∈ store.rowsOf layout)
    (hid : id ∈ row.widgets) : id ∈ Dict.keys store.widgets := by
  unfold Store.rowsOf at hrow
  cases hlayout : Dict.get store.layouts layout with
  | none => simp [hlayout] at hrow
  | some rows =>
    rw [hlayout] at hrow
    exact hwf.slots.mem_iff.mp (mem_slots_of_get hlayout (List.mem_flatMap.mpr ⟨row, hrow, hid⟩))

theorem planned_spec (hwf : Wf store) {ids : List String} {plan : WidgetMovePlan}
    (hplan : planWidgetsMove env store ids (some placement) = some plan) :
    (plan.layouts.map Prod.fst).Nodup ∧ (∀ entry ∈ plan.layouts, (Dict.get store.layouts entry.1).isSome = true) ∧
      ∀ entry ∈ plan.layouts, ∀ row ∈ entry.2, ∀ id ∈ row.widgets, id ∈ Dict.keys store.widgets := by
  obtain ⟨sourceId, source, within, base, target, hmem, -, -, hbase, hlayouts, hlanded⟩ := planWidgetsMove_cases hplan
  have hsource := Dict.get_of_mem hwf.layouts hmem
  have hwidgets : ∀ {rows : List WidgetRow}, (∀ id ∈ rows.flatMap WidgetRow.widgets, id ∈ slots store.layouts) →
      ∀ row ∈ rows, ∀ id ∈ row.widgets, id ∈ Dict.keys store.widgets :=
    fun hrows row hrow id hid => hwf.slots.mem_iff.mp (hrows id (List.mem_flatMap.mpr ⟨row, hrow, hid⟩))
  have hkept : ∀ id ∈ (keptRows ids source).flatMap WidgetRow.widgets, id ∈ slots store.layouts :=
    fun id hid => mem_slots_of_get hsource (mem_kept_slots hid)
  have hcarried : ∀ id ∈ (groupsOf ids source).flatMap Group.taken, id ∈ slots store.layouts :=
    fun id hid => mem_slots_of_get hsource (mem_carried hid)
  rw [hlayouts]
  unfold planned
  by_cases hsame : placement.layout = sourceId
  · rw [if_pos hsame, Option.some.injEq] at hbase
    subst hbase
    rw [if_pos hsame]
    refine ⟨List.nodup_singleton _, ?_, ?_⟩
    · intro entry hentry
      obtain rfl := List.mem_singleton.mp hentry
      rw [hsource]
      rfl
    · intro entry hentry
      obtain rfl := List.mem_singleton.mp hentry
      exact hwidgets fun id hid => (hlanded.mem_slots hid).elim (hkept id) (hcarried id)
  · rw [if_neg hsame] at hbase
    rw [if_neg hsame]
    refine ⟨by simpa using Ne.symm hsame, ?_, ?_⟩
    · intro entry hentry
      rcases List.mem_cons.mp hentry with rfl | hentry
      · rw [hsource]
        rfl
      · obtain rfl := List.mem_singleton.mp hentry
        rw [hbase]
        rfl
    · intro entry hentry
      rcases List.mem_cons.mp hentry with rfl | hentry
      · exact hwidgets hkept
      · obtain rfl := List.mem_singleton.mp hentry
        exact hwidgets fun id hid => (hlanded.mem_slots hid).elim (mem_slots_of_get hbase) (hcarried id)

theorem widthOf_withWidths {layouts : Dict String (List WidgetRow)} {widgets : Dict String (Widget γ)}
    (widths : Dict String ℚ) {id : String} (hid : id ∈ Dict.keys widgets) :
    (⟨layouts, withWidths widgets widths⟩ : Store γ).widthOf id =
      (Dict.get widths id).getD (((Dict.get widgets id).map Widget.width).getD 0) := by
  unfold Store.widthOf
  dsimp only
  rw [withWidths_eq, get_mapped (resized widths) widgets]
  cases hget : Dict.get widgets id with
  | none => exact absurd hid (Dict.get_eq_none_iff.mp hget)
  | some widget => rfl

/-- **Letting go** applies the plan it makes. -/
theorem picture_moved (hwf : Wf store) (ids : List String) (placement : WidgetPlacement) (layout : String) :
    picture (moveWidgets env store ids placement) layout =
      preview store [] (planWidgetsMove env store ids (some placement)) layout := by
  unfold moveWidgets preview
  cases hplan : planWidgetsMove env store ids (some placement) with
  | none => rfl
  | some plan =>
    obtain ⟨hnodup, hfound, hids⟩ := planned_spec hwf hplan
    dsimp only [Option.bind_some, Dict.get_nil]
    split
    · rename_i hcurrent
      rw [planIsCurrent, Bool.and_eq_true, List.all_eq_true, List.all_eq_true] at hcurrent
      obtain ⟨hrows, hwidths⟩ := hcurrent
      have hrowsOf : (Dict.get plan.layouts layout).getD (store.rowsOf layout) = store.rowsOf layout := by
        cases hget : Dict.get plan.layouts layout with
        | none => rfl
        | some rows =>
          have hsame := hrows _ (Dict.mem_of_get hget)
          exact (rowsOf_eq (by simpa using hsame)).symm
      have hwidthOf : ∀ id, (Dict.get plan.widths id).getD (store.widthOf id) = store.widthOf id := by
        intro id
        cases hget : Dict.get plan.widths id with
        | none => rfl
        | some width =>
          have hsame := hwidths _ (Dict.mem_of_get hget)
          unfold Store.widthOf
          cases hwidget : Dict.get store.widgets id with
          | none => simp [hwidget] at hsame
          | some widget =>
            have hwidth : widget.width = width := by simpa [hwidget] using hsame
            exact hwidth.symm
      unfold picture
      rw [hrowsOf]
      congr 2
      funext id
      exact (hwidthOf id).symm
    · have hlayouts := get_foldl_withRows plan.layouts store.layouts hnodup hfound hids layout
      unfold picture
      have hrowsOf : (⟨plan.layouts.foldl (withRows store) store.layouts,
          withWidths store.widgets plan.widths⟩ : Store γ).rowsOf layout =
            (Dict.get plan.layouts layout).getD (store.rowsOf layout) := by
        unfold Store.rowsOf
        rw [hlayouts]
        cases Dict.get plan.layouts layout <;> rfl
      rw [hrowsOf]
      refine List.map_congr_left fun row hrow => ?_
      unfold drawn
      congr 1
      refine List.map_congr_left fun id hid => ?_
      have hkey : id ∈ Dict.keys store.widgets := by
        cases hget : Dict.get plan.layouts layout with
        | none =>
          rw [hget] at hrow
          exact hwf.mem_widgets hrow hid
        | some rows =>
          rw [hget] at hrow
          exact hids _ (Dict.mem_of_get hget) row hrow id hid
      rw [widthOf_withWidths _ hkey]
      rfl

/-! ## 5. Insertions -/

/-- A row that one widget joins, as ids with their widths. -/
def joinOne (env : Env γ) (row : List (String × ℚ)) (column : Int) (entry : String × ℚ) : List (String × ℚ) :=
  let ids := splice (row.map Prod.fst) column [entry.1]
  let share := widgetWidthSubdivisions / ids.length
  ids.zip (env.resolveWidths (splice (row.map Prod.snd) column [min share entry.2]) [(ids.idxOf entry.1 : Int)])

/-- A row that widgets join one after the other. -/
def joinEach (env : Env γ) : List (String × ℚ) → Int → List (String × ℚ) → List (String × ℚ)
  | row, _, [] => row
  | row, column, entry :: rest => joinEach env (joinOne env row column entry) (column + 1) rest

def joinAll (env : Env γ) (row : List (String × ℚ)) (column : Int) (arriving : List (String × ℚ)) :
    List (String × ℚ) :=
  let ids := splice (row.map Prod.fst) column (arriving.map Prod.fst)
  let share := widgetWidthSubdivisions / ids.length
  ids.zip (env.resolveWidths
    (splice (row.map Prod.snd) column (arriving.map fun entry => min share entry.2))
    (arrivedAt column (arriving.map Prod.fst)))

/-- Widgets of the workspace, with their widths. -/
def Store.measured (store : Store γ) (ids : List String) : List (String × ℚ) := ids.map fun id => (id, store.widthOf id)

/-- Widgets that arrive, with the widths they come with. -/
def brought (widgets : List (String × Widget γ)) : List (String × ℚ) := widgets.map fun entry => (entry.1, entry.2.width)

@[simp] theorem measured_fst (ids : List String) : (store.measured ids).map Prod.fst = ids := by
  rw [Store.measured, List.map_map, Function.comp_def, List.map_id']

@[simp] theorem brought_fst (widgets : List (String × Widget γ)) :
    (brought widgets).map Prod.fst = widgets.map Prod.fst := by
  rw [brought, List.map_map]
  rfl

/-- A row that widgets join, with what it holds then. -/
def Registry.grown (registry : Registry γ) (destination : WidgetRow) (widgets : List (String × Widget γ))
    (ids : List String) : WidgetRow :=
  { destination with
    height := (widgets.map fun entry => registry.widgetMinHeight entry.2).foldl max destination.height
    widgets := ids }

/-- As many widths as were asked for. -/
def Env.Sized (env : Env γ) : Prop := ∀ widths keepIndices, (env.resolveWidths widths keepIndices).length = widths.length

theorem exactEnv_sized (createWidget : PagesWidgetType → Widget γ) (v7 : Nat → String) :
    (exactEnv createWidget v7).Sized := fun _ _ => Widths.length_resolveWidths

variable {pairs : List (String × ℚ)}

theorem get_assign_of_not_mem {id : String} (h : id ∉ pairs.map Prod.fst) : Dict.get (assign pairs) id = none := by
  obtain ⟨width, -, hmem⟩ | ⟨-, hget⟩ := Dict.get_foldl_set id pairs []
  · exact absurd (List.mem_map_of_mem hmem) h
  · exact hget

theorem get_assign_of_mem_keys {id : String} (h : id ∈ pairs.map Prod.fst) :
    ∃ width, Dict.get (assign pairs) id = some width := by
  obtain ⟨width, hwidth, -⟩ := Dict.get_ofList_mem h
  exact ⟨width, hwidth⟩

/-- Of distinct keys each has its value. -/
theorem get_assign_of_mem {id : String} {width : ℚ} (hnodup : (pairs.map Prod.fst).Nodup)
    (h : (id, width) ∈ pairs) : Dict.get (assign pairs) id = some width :=
  Dict.get_ofList (fun _ hother => Dict.eq_of_mem hnodup hother h) (List.mem_map_of_mem h)

/-- The width of a widget, from the row it is in or as it was. -/
def widthIn (pairs : List (String × ℚ)) (before : String → ℚ) (id : String) : ℚ :=
  (Dict.get (assign pairs) id).getD (before id)

theorem widthIn_of_not_mem {before : String → ℚ} {id : String}
    (h : id ∉ pairs.map Prod.fst) : widthIn pairs before id = before id := by
  unfold widthIn
  rw [get_assign_of_not_mem h]
  rfl

theorem widthIn_of_mem {id : String} (h : id ∈ pairs.map Prod.fst)
    (before before' : String → ℚ) : widthIn pairs before id = widthIn pairs before' id := by
  obtain ⟨width, hwidth⟩ := get_assign_of_mem_keys h
  unfold widthIn
  rw [hwidth]
  rfl

/-- A row is read back. -/
theorem map_widthIn (hnodup : (pairs.map Prod.fst).Nodup) (before : String → ℚ) :
    ((pairs.map Prod.fst).map fun id => (id, widthIn pairs before id)) = pairs := by
  rw [List.map_map]
  conv_rhs => rw [← List.map_id pairs]
  refine List.map_congr_left fun pair hpair => ?_
  unfold widthIn
  rw [Function.comp_apply, get_assign_of_mem hnodup hpair]
  rfl

theorem nodup_splice {list added : List String} {start : Int} (hlist : list.Nodup) (hadded : added.Nodup)
    (hdisjoint : ∀ id ∈ added, id ∉ list) : (splice list start added).Nodup := by
  refine nodup_of_le_fresh (le_of_eq ?_) hlist hadded hdisjoint
  exact coe_splice list added start

section Joining

variable (hsized : env.Sized)
include hsized

theorem joinOne_fst (row : List (String × ℚ)) (column : Int) (entry : String × ℚ) :
    (joinOne env row column entry).map Prod.fst = splice (row.map Prod.fst) column [entry.1] := by
  unfold joinOne
  dsimp only
  refine List.map_fst_zip ?_
  rw [hsized]
  simp only [splice, List.length_append, List.length_take, List.length_drop, List.length_map, List.length_cons,
    List.length_nil]
  omega

theorem joinAll_fst (row : List (String × ℚ)) (column : Int) (arriving : List (String × ℚ)) :
    (joinAll env row column arriving).map Prod.fst = splice (row.map Prod.fst) column (arriving.map Prod.fst) := by
  unfold joinAll
  dsimp only
  refine List.map_fst_zip ?_
  rw [hsized]
  simp only [splice, List.length_append, List.length_take, List.length_drop, List.length_map]
  omega

theorem joinEach_spec : ∀ {arriving row : List (String × ℚ)} (column : Int), (row.map Prod.fst).Nodup →
    (arriving.map Prod.fst).Nodup → (∀ id ∈ arriving.map Prod.fst, id ∉ row.map Prod.fst) →
      ((joinEach env row column arriving).map Prod.fst).Nodup ∧
        ∀ id, id ∈ (joinEach env row column arriving).map Prod.fst ↔
          id ∈ row.map Prod.fst ∨ id ∈ arriving.map Prod.fst
  | [], _, _, hrow, _, _ => ⟨hrow, fun id => by simp [joinEach]⟩
  | entry :: rest, row, column, hrow, harriving, hdisjoint => by
    rw [List.map_cons] at harriving hdisjoint
    obtain ⟨hnot, hrest⟩ := List.nodup_cons.mp harriving
    obtain ⟨hentry, hdisjoint⟩ := List.forall_mem_cons.mp hdisjoint
    have hfst := joinOne_fst hsized row column entry
    have hmem : ∀ id, id ∈ (joinOne env row column entry).map Prod.fst ↔ id ∈ row.map Prod.fst ∨ id = entry.1 := by
      intro id
      rw [hfst, mem_splice, List.mem_singleton]
    have hjoined : ((joinOne env row column entry).map Prod.fst).Nodup := by
      rw [hfst]
      refine nodup_splice hrow (List.nodup_singleton _) fun id hid => ?_
      rw [List.mem_singleton.mp hid]
      exact hentry
    obtain ⟨hnodup, hall⟩ := joinEach_spec (column + 1) hjoined hrest fun id hid hmem' => by
      rcases (hmem id).mp hmem' with hold | rfl
      · exact hdisjoint id hid hold
      · exact hnot hid
    refine ⟨hnodup, fun id => (hall id).trans ?_⟩
    rw [hmem, List.map_cons, List.mem_cons, or_assoc]

omit hsized in
theorem widthOf_added {layouts : Dict String (List WidgetRow)} {store : Store γ} {added : Dict String (Widget γ)}
    {pairs : List (String × ℚ)} (hkeys : ∀ id ∈ pairs.map Prod.fst, id ∈ Dict.keys (store.widgets ++ added))
    (hadded : ∀ id ∈ Dict.keys added, id ∈ pairs.map Prod.fst) (id : String) :
    (⟨layouts, withWidths (store.widgets ++ added) (assign pairs)⟩ : Store γ).widthOf id =
      widthIn pairs store.widthOf id := by
  by_cases hin : id ∈ pairs.map Prod.fst
  · rw [widthOf_withWidths _ (hkeys id hin)]
    exact widthIn_of_mem hin (fun id => ((Dict.get (store.widgets ++ added) id).map Widget.width).getD 0)
      store.widthOf
  · have hget : Dict.get (store.widgets ++ added) id = Dict.get store.widgets id := by
      rw [get_append, Dict.get_eq_none_iff.mpr fun h => hin (hadded id h), Option.or_none]
    rw [widthIn_of_not_mem hin]
    unfold Store.widthOf
    dsimp only
    rw [withWidths_eq, get_mapped (resized _), hget]
    cases Dict.get store.widgets id with
    | none => rfl
    | some widget =>
      unfold resized
      rw [Option.map_some, get_assign_of_not_mem hin]
      rfl

/-- **One insertion** into a row that is there. -/
theorem insertWidget_joined {store : Store γ} {entry : String × Widget γ} {row column : Int} {layout : String}
    {rows : List WidgetRow} {destination : WidgetRow} {ids : List String}
    (hrows : Dict.get store.layouts layout = some rows) (hdestination : element rows row = some destination)
    (hids : splice destination.widgets column [entry.1] = ids) (hnew : entry.1 ∉ Dict.keys store.widgets)
    (hkeys : ∀ id ∈ destination.widgets, id ∈ Dict.keys store.widgets) :
    (insertWidget env registry store entry row column layout).layouts =
        Dict.set store.layouts layout (rows.set row.toNat (registry.grown destination [entry] ids)) ∧
      Dict.keys (insertWidget env registry store entry row column layout).widgets =
        Dict.keys store.widgets ++ [entry.1] ∧
      ∀ id, (insertWidget env registry store entry row column layout).widthOf id =
        widthIn (joinOne env (store.measured destination.widgets) column (entry.1, entry.2.width)) store.widthOf id := by
  have hnotin : entry.1 ∉ destination.widgets := fun h => hnew (hkeys _ h)
  obtain ⟨hnonneg, hat⟩ := element_lt hdestination
  have hlt : row.toNat < rows.length := (List.getElem?_eq_some_iff.mp hat).1
  have hmin : min (rows.length : Int) row = row := by omega
  have hfst := joinOne_fst hsized (store.measured destination.widgets) column (entry.1, entry.2.width)
  rw [measured_fst, hids] at hfst
  have hjoin : joinOne env (store.measured destination.widgets) column (entry.1, entry.2.width) =
      ids.zip (env.resolveWidths (ids.map fun id => if id = entry.1 then
          min (widgetWidthSubdivisions / ids.length) entry.2.width else store.widthOf id)
        [(ids.idxOf entry.1 : Int)]) := by
    have hasked : (destination.widgets.map fun id => if id = entry.1 then
        min (widgetWidthSubdivisions / ids.length) entry.2.width else store.widthOf id) =
          destination.widgets.map store.widthOf :=
      List.map_congr_left fun id hid => if_neg fun heq : id = entry.1 => hnotin (heq ▸ hid)
    unfold joinOne
    rw [measured_fst, hids, ← hids, splice_map, hids, hasked, Store.measured, List.map_map]
    simp only [Function.comp_def, List.map_cons, List.map_nil, if_true]
  have hafter : insertWidget env registry store entry row column layout =
      { layouts := Dict.set store.layouts layout (rows.set row.toNat (registry.grown destination [entry] ids))
        widgets := withWidths (store.widgets ++ [entry]) (assign (joinOne env
          (store.measured destination.widgets) column (entry.1, entry.2.width))) } := by
    rw [hjoin]
    unfold insertWidget
    rw [hrows]
    simp only [hmin, hdestination, Option.map_some, Option.getD_some, if_neg (not_lt.mpr hnonneg), hids]
    rfl
  have hkeys' : Dict.keys (store.widgets ++ [entry]) = Dict.keys store.widgets ++ [entry.1] := by simp [Dict.keys]
  refine ⟨by rw [hafter], ?_, fun id => ?_⟩
  · rw [hafter, withWidths_eq]
    dsimp only
    rw [keys_mapped (resized _), hkeys']
  · rw [hafter]
    refine widthOf_added (fun other hother => ?_) (fun other hother => ?_) id
    · rw [hkeys', List.mem_append]
      rw [hfst, ← hids, mem_splice] at hother
      exact hother.imp_left (hkeys other)
    · rw [hfst, ← hids]
      exact mem_splice.mpr (.inr hother)

/-- **Insertions one after the other** into a row that is there. -/
theorem insertEach_joined {row : Int} {layout : String} : ∀ {widgets : List (String × Widget γ)} {store : Store γ}
    {rows : List WidgetRow} {destination : WidgetRow} {column : Int}, Dict.get store.layouts layout = some rows →
    element rows row = some destination → destination.widgets.Nodup →
    (∀ id ∈ destination.widgets, id ∈ Dict.keys store.widgets) → (widgets.map Prod.fst).Nodup →
    (∀ id ∈ widgets.map Prod.fst, id ∉ Dict.keys store.widgets) → ∀ joined : List (String × ℚ),
      joined = joinEach env (store.measured destination.widgets) column (brought widgets) →
      (∀ other, Dict.get (insertEach env registry widgets row column layout store).layouts other =
        if layout = other then some (rows.set row.toNat (registry.grown destination widgets (joined.map Prod.fst)))
        else Dict.get store.layouts other) ∧
      ∀ id, (insertEach env registry widgets row column layout store).widthOf id =
        widthIn joined store.widthOf id := by
  intro widgets
  induction widgets with
  | nil =>
    intro store rows destination column hrows hdestination hnodup hkeys _ _ joined hjoined
    obtain ⟨-, hat⟩ := element_lt hdestination
    have hfst : joined.map Prod.fst = destination.widgets := hjoined ▸ measured_fst destination.widgets
    refine ⟨fun other => ?_, fun id => ?_⟩
    · rw [hfst]
      unfold insertEach
      split
      · rename_i hother
        obtain ⟨hlt, hat⟩ := List.getElem?_eq_some_iff.mp hat
        rw [← hother, hrows]
        subst hat
        exact congrArg some (List.set_getElem_self hlt).symm
      · rfl
    · unfold insertEach
      by_cases hid : id ∈ destination.widgets
      · have hmem : (id, store.widthOf id) ∈ joined := by
          rw [hjoined]
          exact List.mem_map_of_mem hid
        unfold widthIn
        rw [get_assign_of_mem (hfst ▸ hnodup) hmem]
        rfl
      · rw [widthIn_of_not_mem (hfst ▸ hid)]
  | cons entry rest ih =>
    intro store rows destination column hrows hdestination hnodup hkeys hwidgets hnew joined hjoined
    rw [List.map_cons] at hwidgets hnew
    obtain ⟨hnot, hrest⟩ := List.nodup_cons.mp hwidgets
    obtain ⟨hentry, hnew⟩ := List.forall_mem_cons.mp hnew
    obtain ⟨hnonneg, hat⟩ := element_lt hdestination
    have hlt : row.toNat < rows.length := (List.getElem?_eq_some_iff.mp hat).1
    have hnodup' : (splice destination.widgets column [entry.1]).Nodup := by
      refine nodup_splice hnodup (List.nodup_singleton _) fun id hid => ?_
      rw [List.mem_singleton.mp hid]
      exact fun h => hentry (hkeys _ h)
    have hmem : ∀ {id}, id ∈ splice destination.widgets column [entry.1] ↔
        id ∈ destination.widgets ∨ id ∈ [entry.1] := mem_splice
    generalize hids : splice destination.widgets column [entry.1] = ids at hnodup' hmem
    obtain ⟨hlayouts, hkeys', hwidths⟩ := insertWidget_joined registry hsized hrows hdestination hids hentry hkeys
    generalize hfirst : joinOne env (store.measured destination.widgets) column
      (entry.1, entry.2.width) = first at hwidths
    have hfst : first.map Prod.fst = ids := by rw [← hfirst, joinOne_fst hsized, measured_fst, hids]
    -- the store after the first
    generalize hafter : insertWidget env registry store entry row column layout = after at hlayouts hkeys' hwidths
    generalize hgrown : registry.grown destination [entry] ids = grown at hlayouts
    have hwidgets' : grown.widgets = ids := hgrown ▸ rfl
    have hrows' : Dict.get after.layouts layout = some (rows.set row.toNat grown) := by
      rw [hlayouts, Dict.get_set, if_pos rfl]
    have hdestination' : element (rows.set row.toNat grown) row = some grown := by
      unfold element
      rw [if_neg (not_lt.mpr hnonneg), List.getElem?_set_self hlt]
    have hrow : after.measured grown.widgets = first := by
      have hread := map_widthIn (hfst ▸ hnodup') store.widthOf
      rw [hfst] at hread
      rw [← hread, hwidgets']
      exact List.map_congr_left fun id _ => by rw [hwidths]
    obtain ⟨hgets, hwidths'⟩ := ih hrows' hdestination' (hwidgets' ▸ hnodup') (fun id hid => by
      rw [hkeys', List.mem_append]
      exact (hmem.mp (hwidgets' ▸ hid)).imp_left (hkeys id)) hrest (fun id hid hold => by
      rw [hkeys', List.mem_append, List.mem_singleton] at hold
      rcases hold with hold | rfl
      · exact hnew id hid hold
      · exact hnot hid) joined (by
      rw [hrow, ← hfirst, hjoined]
      rfl)
    unfold insertEach
    rw [hafter]
    refine ⟨fun other => ?_, fun id => ?_⟩
    · rw [hgets, hlayouts, Dict.get_set]
      split
      · rw [List.set_set, ← hgrown]
        rfl
      · rfl
    · rw [hwidths']
      by_cases hid : id ∈ joined.map Prod.fst
      · exact widthIn_of_mem hid _ _
      · rw [widthIn_of_not_mem hid, widthIn_of_not_mem hid, hwidths]
        refine widthIn_of_not_mem fun hold => hid ?_
        have hspec := joinEach_spec hsized (column + 1) (hfst ▸ hnodup') ((brought_fst rest).symm ▸ hrest)
          fun id hid hold => by
            rw [brought_fst] at hid
            rw [hfst] at hold
            rcases hmem.mp hold with hold | hold
            · exact hnew id hid (hkeys id hold)
            · exact hnot (List.mem_singleton.mp hold ▸ hid)
        rw [hjoined]
        show id ∈ (joinEach env (joinOne env _ column (entry.1, entry.2.width)) (column + 1) _).map Prod.fst
        rw [hfirst]
        exact (hspec.2 id).mpr (.inl hold)

omit hsized in
theorem insertWidget_rows {store : Store γ} {rows : List WidgetRow} {layout : String}
    (hrows : Dict.get store.layouts layout = some rows) (entry : String × Widget γ) (row column : Int) :
    ∃ rows', Dict.get (insertWidget env registry store entry row column layout).layouts layout = some rows' ∧
      rows.length ≤ rows'.length ∧ (element rows row = none → rows.length < rows'.length) := by
  unfold insertWidget
  rw [hrows]
  dsimp only
  rw [Dict.get_set, if_pos rfl]
  refine ⟨_, rfl, ?_⟩
  split
  · exact ⟨by simp, fun _ => by simp⟩
  · rename_i hrow
    split
    · exact ⟨by simp, fun _ => by simp⟩
    · rename_i destination hfound
      refine ⟨by simp, fun hnone => ?_⟩
      obtain ⟨hnonneg, hat⟩ := element_lt hfound
      have hlt := (List.getElem?_eq_some_iff.mp hat).1
      have hmin : min (rows.length : Int) row = row := by omega
      rw [hmin, hnone] at hfound
      cases hfound

omit hsized in
theorem insertEach_rows {row : Int} {layout : String} : ∀ (widgets : List (String × Widget γ)) {store : Store γ}
    {rows : List WidgetRow} (column : Int), Dict.get store.layouts layout = some rows →
    ∃ rows', Dict.get (insertEach env registry widgets row column layout store).layouts layout = some rows' ∧
      rows.length ≤ rows'.length
  | [], _, rows, _, hrows => ⟨rows, hrows, le_refl _⟩
  | entry :: rest, store, rows, column, hrows => by
    obtain ⟨rows', hrows', hle, -⟩ := insertWidget_rows registry hrows entry row column
    obtain ⟨rows'', hrows'', hle'⟩ := insertEach_rows rest (column + 1) hrows'
    exact ⟨rows'', hrows'', hle.trans hle'⟩

omit hsized in
theorem insertEach_missing {row : Int} {layout : String} : ∀ (widgets : List (String × Widget γ)) {store : Store γ}
    (column : Int), Dict.get store.layouts layout = none →
    insertEach env registry widgets row column layout store = store
  | [], _, _, _ => rfl
  | entry :: rest, store, column, h => by
    have hfirst : insertWidget env registry store entry row column layout = store := by
      unfold insertWidget
      rw [h]
    rw [insertEach, hfirst, insertEach_missing rest (column + 1) h]

end Joining

theorem joinWidths_eq {widgets : List (String × Widget γ)} {destination : List String} (column : Int)
    (hwidgets : (widgets.map Prod.fst).Nodup) (hnew : ∀ id ∈ widgets.map Prod.fst, id ∉ destination) :
    joinWidths env (widgets.map Prod.fst).contains
        (fun id => ((Dict.get widgets id).map Widget.width).getD (store.widthOf id)) destination column
        (widgets.map Prod.fst) = joinAll env (store.measured destination) column (brought widgets) := by
  unfold joinWidths askedWidths joinAll Store.measured brought
  simp only [List.map_map, Function.comp_def, List.map_id', splice_map]
  congr 3
  · refine List.map_congr_left fun id hid => ?_
    have hnot : id ∉ widgets.map Prod.fst := fun h => hnew id h hid
    have hget : Dict.get widgets id = none := Dict.get_eq_none_iff.mpr hnot
    rw [if_neg (by simpa using hnot), hget]
    rfl
  · refine List.map_congr_left fun entry hentry => ?_
    have hmem : entry.1 ∈ widgets.map Prod.fst := List.mem_map_of_mem hentry
    rw [if_pos (by simpa using hmem), Dict.get_of_mem hwidgets hentry]
    rfl

/-- Joining one after the other and joining at once come to the same row, or to the same place for a row of their
    own. -/
def Alike (env : Env γ) (store : Store γ) (widgets : List (String × Widget γ)) (placement : WidgetPlacement)
    (rows : List WidgetRow) : Prop :=
  match placement.column with
  | none => 0 ≤ placement.row ∨ placement.row + rows.length ≤ 0
  | some column => ∃ destination, element rows placement.row = some destination ∧
      joinEach env (destination.widgets.map fun id => (id, store.widthOf id)) column
          (widgets.map fun entry => (entry.1, entry.2.width)) =
        joinAll env (destination.widgets.map fun id => (id, store.widthOf id)) column
          (widgets.map fun entry => (entry.1, entry.2.width))

theorem widthIn_arriving {widgets : List (String × Widget γ)}
    (hpairs : ∀ id ∈ widgets.map Prod.fst, id ∈ pairs.map Prod.fst) (id : String) :
    widthIn pairs (fun id => ((Dict.get widgets id).map Widget.width).getD (store.widthOf id)) id =
      widthIn pairs store.widthOf id := by
  by_cases hid : id ∈ pairs.map Prod.fst
  · exact widthIn_of_mem hid _ _
  · have hget : Dict.get widgets id = none := Dict.get_eq_none_iff.mpr fun h => hid (hpairs id h)
    rw [widthIn_of_not_mem hid, widthIn_of_not_mem hid, hget]
    rfl

def redrawn (store : Store γ) (layout : String) (rows : List WidgetRow) (pairs : List (String × ℚ)) (other : String) :
    List DrawnRow :=
  ((if layout = other then some rows else none).getD (store.rowsOf other)).map (drawn (widthIn pairs store.widthOf))

theorem redrawn_self (layout : String) (rows : List WidgetRow) :
    redrawn store layout rows pairs layout = rows.map (drawn (widthIn pairs store.widthOf)) := by
  rw [redrawn, if_pos rfl, Option.getD_some]

section Redrawn

variable {layout : String} {rows : List WidgetRow}

variable (store) in
theorem preview_redrawn {widgets : List (String × Widget γ)} {plan : Option WidgetMovePlan}
    (hplan : plan = some ⟨[(layout, rows)], assign pairs⟩)
    (hpairs : ∀ id ∈ widgets.map Prod.fst, id ∈ pairs.map Prod.fst) (other : String) :
    preview store widgets plan other = redrawn store layout rows pairs other := by
  rw [hplan]
  unfold preview redrawn
  dsimp only [Option.bind_some]
  rw [Dict.get_cons, Dict.get_nil]
  congr 2
  funext id
  exact widthIn_arriving hpairs id

theorem picture_redrawn {after : Store γ} (hgets : ∀ other, Dict.get after.layouts other =
      if layout = other then some rows else Dict.get store.layouts other)
    (hwidths : ∀ id, after.widthOf id = widthIn pairs store.widthOf id) (other : String) :
    picture after other = redrawn store layout rows pairs other := by
  have hrowsOf : after.rowsOf other = (if layout = other then some rows else none).getD (store.rowsOf other) := by
    unfold Store.rowsOf
    rw [hgets]
    split <;> rfl
  unfold picture redrawn
  rw [hrowsOf]
  congr 2
  funext id
  exact hwidths id

end Redrawn

section Inserted

variable {widgets : List (String × Widget γ)} (hwidgets : (widgets.map Prod.fst).Nodup)
  (hnew : ∀ id ∈ widgets.map Prod.fst, id ∉ Dict.keys store.widgets)
include hwidgets hnew

/-- **Widgets that join a row** are drawn as they will be exactly if joining at once is joining one by one. -/
theorem preview_joined_iff (hsized : env.Sized) (hwf : Wf store) (hne : widgets ≠ []) {placement : WidgetPlacement}
    {rows : List WidgetRow} {column : Int} {destination : WidgetRow}
    (hrows : Dict.get store.layouts placement.layout = some rows) (hcolumn : placement.column = some column)
    (hdestination : element rows placement.row = some destination) :
    (∀ layout, preview store widgets (planWidgetsInsert env registry store widgets (some placement)) layout =
        picture (insertWidgetsAt env registry store widgets placement) layout) ↔
      joinEach env (store.measured destination.widgets) column (brought widgets) =
        joinAll env (store.measured destination.widgets) column (brought widgets) := by
  obtain ⟨-, hat⟩ := element_lt hdestination
  have hrow : destination ∈ store.rowsOf placement.layout := by
    rw [rowsOf_eq hrows]
    exact List.mem_of_getElem? hat
  have hkeys : ∀ id ∈ destination.widgets, id ∈ Dict.keys store.widgets := fun id hid => hwf.mem_widgets hrow hid
  have hnodup : destination.widgets.Nodup := by
    have hslots : (slots store.layouts).Nodup := hwf.slots.nodup_iff.mpr hwf.widgets
    unfold slots total at hslots
    have hlayout := (List.nodup_flatMap.mp hslots).1 _ (Dict.mem_of_get hrows)
    exact (List.nodup_flatMap.mp hlayout).1 _ (List.mem_of_getElem? hat)
  have hdisjoint : ∀ id ∈ widgets.map Prod.fst, id ∉ destination.widgets := fun id hid h => hnew id hid (hkeys id h)
  have hafter : insertWidgetsAt env registry store widgets placement =
      insertEach env registry widgets placement.row column placement.layout store := by
    unfold insertWidgetsAt
    rw [if_neg hne, hcolumn]
  -- what is there after, and what is drawn
  generalize heach : joinEach env (store.measured destination.widgets) column (brought widgets) = each
  generalize hall : joinAll env (store.measured destination.widgets) column (brought widgets) = all
  have hallfst : all.map Prod.fst = splice destination.widgets column (widgets.map Prod.fst) := by
    rw [← hall, joinAll_fst hsized, measured_fst, brought_fst]
  have hallnodup : (all.map Prod.fst).Nodup := by
    rw [hallfst]
    exact nodup_splice hnodup hwidgets hdisjoint
  have heachnodup : (each.map Prod.fst).Nodup := by
    rw [← heach]
    refine (joinEach_spec hsized column ((measured_fst _).symm ▸ hnodup) ((brought_fst _).symm ▸ hwidgets)
      fun id hid hmem => ?_).1
    rw [brought_fst] at hid
    rw [measured_fst] at hmem
    exact hdisjoint id hid hmem
  have hplan : planWidgetsInsert env registry store widgets (some placement) =
      some ⟨[(placement.layout, rows.set placement.row.toNat (registry.grown destination widgets (all.map Prod.fst)))],
        assign all⟩ := by
    unfold planWidgetsInsert
    simp only [if_neg hne, hrows, hcolumn, hdestination]
    rw [joinWidths_eq column hwidgets hdisjoint, hall, hallfst]
    rfl
  obtain ⟨hgets, hwidths⟩ := insertEach_joined registry hsized hrows hdestination hnodup hkeys hwidgets hnew each heach.symm
  have hpreview := preview_redrawn store hplan fun id hid => hallfst ▸ mem_splice.mpr (.inr hid)
  have hpicture := picture_redrawn hgets hwidths
  rw [hafter]
  constructor
  · intro hsame
    have hlayout := hsame placement.layout
    rw [hpreview, hpicture, redrawn_self, redrawn_self, List.map_set, List.map_set] at hlayout
    have hlt : placement.row.toNat < rows.length := (List.getElem?_eq_some_iff.mp hat).1
    have hdrawn := congrArg (fun list => list[placement.row.toNat]?) hlayout
    simp only [List.getElem?_set, List.length_map, hlt, if_true, Option.some.injEq] at hdrawn
    have hrowWidgets := congrArg DrawnRow.widgets hdrawn
    unfold drawn Registry.grown at hrowWidgets
    dsimp only at hrowWidgets
    rw [map_widthIn hallnodup, map_widthIn heachnodup] at hrowWidgets
    exact hrowWidgets.symm
  · intro hsame layout
    rw [hpreview, hpicture, hsame]

/-- **Widgets that open a row** are drawn where the row will be exactly if both count from the same end. -/
theorem preview_opened_iff (hsized : env.Sized) (hfresh : env.Fresh store) (hne : widgets ≠ [])
    {placement : WidgetPlacement} {rows : List WidgetRow}
    (hrows : Dict.get store.layouts placement.layout = some rows) (hcolumn : placement.column = none) :
    (∀ layout, preview store widgets (planWidgetsInsert env registry store widgets (some placement)) layout =
        picture (insertWidgetsAt env registry store widgets placement) layout) ↔
      0 ≤ placement.row ∨ placement.row + rows.length ≤ 0 := by
  generalize hopened : (⟨env.v7 0, highest (widgets.map fun entry => registry.initialHeight entry.2), false,
    widgets.map Prod.fst⟩ : WidgetRow) = opened
  generalize hpairs : (widgets.map Prod.fst).zip (env.resolveWidths (widgets.map fun entry => entry.2.width) []) = pairs
  generalize hindex : (max 0 (min (rows.length : Int) placement.row)).toNat = index
  have hpairsfst : pairs.map Prod.fst = widgets.map Prod.fst := by
    rw [← hpairs]
    refine List.map_fst_zip ?_
    rw [hsized, List.length_map, List.length_map]
  have hplan : planWidgetsInsert env registry store widgets (some placement) =
      some ⟨[(placement.layout, splice rows placement.row [opened])], assign pairs⟩ := by
    unfold planWidgetsInsert
    simp only [if_neg hne, hrows, hcolumn, hopened, hpairs]
  have hafter : insertWidgetsAt env registry store widgets placement =
      { layouts := Dict.set store.layouts placement.layout (rows.take index ++ opened :: rows.drop index)
        widgets := withWidths (store.widgets ++ widgets) (assign pairs) } := by
    unfold insertWidgetsAt
    simp only [if_neg hne, hcolumn, hrows, hopened, hpairs, hindex]
  have hwidths : ∀ id, (insertWidgetsAt env registry store widgets placement).widthOf id =
      widthIn pairs store.widthOf id := by
    rw [hafter]
    refine widthOf_added (fun id hid => ?_) (fun id hid => hpairsfst ▸ hid)
    unfold Dict.keys
    rw [List.map_append, List.mem_append]
    exact .inr (hpairsfst ▸ hid)
  have hpreview := preview_redrawn store hplan fun id hid => hpairsfst ▸ hid
  have hpicture := picture_redrawn (fun other => by rw [hafter, Dict.get_set]) hwidths
  constructor
  · intro hsame
    by_contra hno
    push Not at hno
    obtain ⟨hnegative, hinside⟩ := hno
    have hlayout := hsame placement.layout
    rw [hpreview, hpicture, redrawn_self, redrawn_self] at hlayout
    have hzero : index = 0 := by omega
    obtain ⟨first, rest, rfl⟩ := List.exists_cons_of_ne_nil (show rows ≠ [] by
      rintro rfl
      simp at hinside
      omega)
    obtain ⟨k, hk⟩ : ∃ k, ((first :: rest).length + placement.row).toNat = k + 1 :=
      ⟨((first :: rest).length + placement.row).toNat - 1, by omega⟩
    -- what is drawn first is a row that was there
    unfold splice at hlayout
    dsimp only at hlayout
    rw [hzero, if_pos hnegative, hk, List.take_succ_cons, List.take_zero] at hlayout
    have hid := congrArg (fun list => list.head?.map DrawnRow.id) hlayout
    simp only [List.cons_append, List.map_cons, List.head?_cons, Option.map_some, Option.some.injEq, List.nil_append,
      drawn, ← hopened] at hid
    refine hfresh.rows 0 (hid ▸ ?_)
    unfold rowIds total
    exact List.mem_flatMap.mpr ⟨_, Dict.mem_of_get hrows, by simp⟩
  · intro hplace layout
    have hsplice : splice rows placement.row [opened] = rows.take index ++ opened :: rows.drop index := by
      unfold splice
      dsimp only
      have hat : (if placement.row < 0 then ((rows.length : Int) + placement.row).toNat
          else min placement.row.toNat rows.length) = index := by
        split <;> omega
      rw [hat, List.append_assoc]
      rfl
    rw [hpreview, hpicture, hsplice]

omit hwidgets hnew in
/-- Nothing is drawn for a row that is not there, and widgets that are let go over it open one. -/
theorem preview_missing (hne : widgets ≠ []) {placement : WidgetPlacement} {rows : List WidgetRow} {column : Int}
    (hrows : Dict.get store.layouts placement.layout = some rows) (hcolumn : placement.column = some column)
    (hdestination : element rows placement.row = none) :
    preview store widgets (planWidgetsInsert env registry store widgets (some placement)) placement.layout ≠
      picture (insertWidgetsAt env registry store widgets placement) placement.layout := by
  obtain ⟨entry, rest, rfl⟩ := List.exists_cons_of_ne_nil hne
  intro hsame
  have hplan : planWidgetsInsert env registry store (entry :: rest) (some placement) = none := by
    unfold planWidgetsInsert
    simp only [if_neg hne, hrows, hcolumn, hdestination]
  have hafter : insertWidgetsAt env registry store (entry :: rest) placement =
      insertEach env registry rest placement.row (column + 1) placement.layout
        (insertWidget env registry store entry placement.row column placement.layout) := by
    unfold insertWidgetsAt
    rw [if_neg hne, hcolumn]
    rfl
  obtain ⟨rows', hrows', -, hlt⟩ := insertWidget_rows registry hrows entry placement.row column
  obtain ⟨rows'', hrows'', hle⟩ := insertEach_rows registry rest (column + 1) hrows'
  have hlengths := congrArg List.length hsame
  rw [hplan, hafter] at hlengths
  unfold preview picture at hlengths
  rw [List.length_map, List.length_map, rowsOf_eq hrows''] at hlengths
  dsimp only [Option.bind_none, Option.getD_none] at hlengths
  rw [rowsOf_eq hrows] at hlengths
  have := hlt hdestination
  omega

/-- **Insertions** are drawn as they will be exactly if there is nothing to insert, no such layout, or joining at once
    is joining one by one. -/
theorem preview_insert_iff (hsized : env.Sized) (hwf : Wf store) (hfresh : env.Fresh store)
    (placement : WidgetPlacement) :
    (∀ layout, preview store widgets (planWidgetsInsert env registry store widgets (some placement)) layout =
        picture (insertWidgetsAt env registry store widgets placement) layout) ↔
      widgets = [] ∨ ∀ rows, Dict.get store.layouts placement.layout = some rows →
        Alike env store widgets placement rows := by
  by_cases hne : widgets = []
  · subst hne
    exact iff_of_true (fun _ => rfl) (.inl rfl)
  rw [or_iff_right hne]
  cases hrows : Dict.get store.layouts placement.layout with
  | none =>
    refine iff_of_true (fun layout => ?_) fun rows h => by cases h
    have hplan : planWidgetsInsert env registry store widgets (some placement) = none := by
      unfold planWidgetsInsert
      simp only [if_neg hne, hrows]
    have hafter : insertWidgetsAt env registry store widgets placement = store := by
      unfold insertWidgetsAt
      rw [if_neg hne]
      cases placement.column with
      | none =>
        dsimp only
        rw [hrows]
      | some column => exact insertEach_missing registry widgets column hrows
    rw [hplan, hafter]
    -- the widgets of the drag are none of the workspace's
    refine List.map_congr_left fun row hrow => ?_
    unfold drawn
    congr 1
    refine List.map_congr_left fun id hid => ?_
    have hget : Dict.get widgets id = none :=
      Dict.get_eq_none_iff.mpr fun h => hnew id h (hwf.mem_widgets hrow hid)
    dsimp only
    rw [hget]
    rfl
  | some rows =>
    have hone : (∀ rows', some rows = some rows' → Alike env store widgets placement rows') ↔
        Alike env store widgets placement rows :=
      ⟨fun h => h rows rfl, fun h rows' heq => Option.some.inj heq ▸ h⟩
    rw [hone]
    unfold Alike
    cases hcolumn : placement.column with
    | none => exact preview_opened_iff registry hwidgets hnew hsized hfresh hne hrows hcolumn
    | some column =>
      cases hdestination : element rows placement.row with
      | none =>
        refine iff_of_false (fun h => preview_missing registry hne hrows hcolumn hdestination (h _)) ?_
        rintro ⟨destination, h, -⟩
        cases h
      | some destination =>
        rw [preview_joined_iff registry hwidgets hnew hsized hwf hne hrows hcolumn hdestination]
        constructor
        · exact fun h => ⟨destination, rfl, h⟩
        · rintro ⟨other, hother, h⟩
          obtain rfl := Option.some.inj hother
          exact h

end Inserted

/-- The height that a row is rendered at, where it is known. -/
def shownHeight (shown : Dict String ℚ) (row : WidgetRow) : ℚ := round ((Dict.get shown row.id).getD row.height)

theorem join_one (env : Env γ) (row : List (String × ℚ)) (column : Int) (hcolumn : 0 ≤ column)
    (hle : column ≤ row.length) (entry : String × ℚ) (hnew : entry.1 ∉ row.map Prod.fst) :
    joinEach env row column [entry] = joinAll env row column [entry] := by
  have hindex : ((splice (row.map Prod.fst) column [entry.1]).idxOf entry.1 : Int) = column := by
    unfold splice
    dsimp only
    have hat : min column.toNat (row.map Prod.fst).length = column.toNat := by
      rw [List.length_map]
      omega
    have hnot : entry.1 ∉ (row.map Prod.fst).take column.toNat := fun h => hnew (List.mem_of_mem_take h)
    rw [if_neg (not_lt.mpr hcolumn), hat, List.append_assoc, List.idxOf_append_of_notMem hnot,
      List.length_take, hat, List.singleton_append, List.idxOf_cons_self]
    omega
  have harrived : arrivedAt column [entry.1] = [column] := by simp [arrivedAt]
  unfold joinEach joinEach joinOne joinAll
  simp only [List.map_cons, List.map_nil, hindex, harrived]

theorem sample_fresh : (exactEnv Sample.environment.createWidget Sample.environment.v7).Fresh Sample.workspace :=
  ⟨Sample.fresh.injective, Sample.fresh.layouts, Sample.fresh.widgets, Sample.fresh.rows⟩

/-- Every kind of widget opens at 250 and is at least 60 tall. -/
def sampleRegistry : Registry Unit := ⟨fun _ => 250, fun _ => 60⟩

def sampleWidget (width : ℚ) : Widget Unit := ⟨none, "", width, false, [], ()⟩

end Ceres.Console.Layout
