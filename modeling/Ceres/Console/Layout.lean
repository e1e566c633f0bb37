/-
  File:      Ceres/Console/Layout.lean
  Subject:   REARRANGING THE WIDGETS OF A WORKSPACE (`console/app/workspace/layout.ts`: `planWidgetsMove`,
             `planWidgetsGroup`, `planWidgetUngroup`, `layoutsWithin`; `edit-session.ts`: `moveWidgets`,
             `groupWidgets`, `ungroupWidget`).

  A workspace is a graph of objects: its own layout and one for every page of a widget, each a list of
  rows that refer to widgets. Their ids are distinct, so an object is named by its id; `Store` holds the
  layouts and the widgets under theirs. The layouts are in no particular order, of which the code's, the
  outer before the inner, is one.

  * `planWidgetsMove`, `moveWidgets` -- a plan in ids, and the rows made from it again;
  * `planWidgetsGroup`, `groupWidgets`, `planWidgetUngroup`, `ungroupWidget`;
  * `Wf` -- every widget in one slot, every page with its layout, and no layout inside itself;
  * `slots_set`, `Wf.rank_of_move` -- what a replaced layout changes.
-/
import Ceres.Library.Closure
import Ceres.Library.Dict

namespace Ceres.Console.Layout

open Ceres.Library

set_option linter.unusedSectionVars false

/-! ## 1. Workspaces -/

inductive PagesWidgetType where
  | section_
  | tabs
  | carousel
  deriving DecidableEq

/-- A page of a widget; its layout is kept under its id. -/
structure WidgetPage where
  id : String
  name : String
  deriving DecidableEq

/-- A widget. `type` is `none` for one that holds no pages, `content` are the settings of its kind. -/
structure Widget (γ : Type) where
  type : Option PagesWidgetType
  name : String
  width : ℚ
  frameless : Bool
  pages : List WidgetPage
  content : γ

structure WidgetRow where
  id : String
  height : ℚ
  collapsed : Bool
  widgets : List String
  deriving DecidableEq

/-- The id of the workspace's own layout. -/
def rootLayoutId : String := "root"

structure Store (γ : Type) where
  layouts : Dict String (List WidgetRow)
  widgets : Dict String (Widget γ)

def widgetWidthSubdivisions : ℚ := 120

/-- What the code calls that is not about where the widgets are: the arithmetic of widths, the settings a
    new widget begins with, and ids that are not taken. -/
structure Env (γ : Type) where
  resolveWidths : List ℚ → List Int → List ℚ
  filledWidths : List ℚ → List ℚ
  createWidget : PagesWidgetType → Widget γ
  v7 : Nat → String

variable {γ : Type}

def pagesOf (widget : Widget γ) : List WidgetPage :=
  match widget.type with
  | none => []
  | some _ => widget.pages

namespace Store

variable (store : Store γ)

def widthOf (id : String) : ℚ := ((Dict.get store.widgets id).map Widget.width).getD 0

def nameOf (id : String) : String := ((Dict.get store.widgets id).map Widget.name).getD ""

def rowsOf (layout : String) : List WidgetRow := (Dict.get store.layouts layout).getD []

/-- The ids of the pages of a list of widgets. -/
def pagesWithin (ids : List String) : List String :=
  ids.flatMap fun id => ((Dict.get store.widgets id).map fun widget =>
    (pagesOf widget).map WidgetPage.id).getD []

/-- The layouts right inside one. -/
def inner (layout : String) : List String :=
  store.pagesWithin ((store.rowsOf layout).flatMap WidgetRow.widgets)

/-- Every layout held inside `ids`, however deep; `none` where the recursion would not end. -/
def layoutsWithin (ids : List String) : Option (List String) :=
  Closure.gather (fun page => (Closure.collect store.inner (store.layouts.length + 1) page).map (page :: ·))
    (store.pagesWithin ids)

end Store

/-- `splice` of an array at an index of any sign, with nothing taken out. -/
def splice {α : Type} (list : List α) (start : Int) (added : List α) : List α :=
  let at_ := if start < 0 then ((list.length : Int) + start).toNat else min start.toNat list.length
  list.take at_ ++ added ++ list.drop at_

/-- An element by an index that may be negative or beyond the end. -/
def element {α : Type} (list : List α) (index : Int) : Option α :=
  if index < 0 then none else list[index.toNat]?

/-- An object filled by assigning to its keys one after the other. -/
def assign {κ ν : Type} [DecidableEq κ] (pairs : List (κ × ν)) : Dict κ ν :=
  pairs.foldl (fun dict pair => Dict.set dict pair.1 pair.2) []

/-! ## 2. Moves -/

structure WidgetPlacement where
  layout : String
  row : Int
  /-- `none` opens a row of its own. -/
  column : Option Int

structure WidgetMovePlan where
  layouts : List (String × List WidgetRow)
  widths : Dict String ℚ

def taken (held : List String) (row : WidgetRow) : List String := row.widgets.filter fun id => held.contains id

def remaining (held : List String) (row : WidgetRow) : List String :=
  row.widgets.filter fun id => !held.contains id

/-- What is in hand of one row. -/
structure Group where
  row : WidgetRow
  taken : List String
  staying : List String

def groupsOf (held : List String) (rows : List WidgetRow) : List Group :=
  rows.filterMap fun row =>
    if taken held row = [] then none else some ⟨row, taken held row, remaining held row⟩

/-- The rows once the widgets are out of them, without those that are empty. -/
def keptRows (held : List String) (rows : List WidgetRow) : List WidgetRow :=
  (rows.map fun row => { row with widgets := remaining held row }).filter fun row => !row.widgets.isEmpty

/-- Math.round. -/
def round (x : ℚ) : ℚ := ⌊x + 1 / 2⌋

variable (env : Env γ) (store : Store γ)

/-- The widths a list of widgets is given. -/
def resolved (ids : List String) : List (String × ℚ) :=
  ids.zip (env.resolveWidths (ids.map store.widthOf) [])

/-- The row a drop opens for what it took from one. An emptied row's id passes to it. -/
def openedRow (group : Group) (i : Nat) : WidgetRow where
  id := if group.staying.isEmpty then group.row.id else env.v7 i
  height := round group.row.height
  collapsed := group.row.collapsed
  widgets := group.taken

/-- The rows a drop opens, one for each row it took from. -/
def openedRows (groups : List Group) : List WidgetRow :=
  groups.zipIdx.map fun entry => openedRow env entry.1 entry.2

/-- Where the source is the layout of the drop, its rows are the ones left. -/
def planned (sourceId : String) (kept : List WidgetRow) (layout : String) (target : List WidgetRow) :
    List (String × List WidgetRow) :=
  if layout = sourceId then [(sourceId, target)] else [(sourceId, kept), (layout, target)]

/-- Work out the layouts that moving `ids` to `placement` produces, changing nothing. -/
def planWidgetsMove (ids : List String) (placement : Option WidgetPlacement) : Option WidgetMovePlan :=
  match store.layouts.find? fun entry => entry.2.any fun row => !(taken ids row).isEmpty with
  | none => none
  | some (sourceId, source) =>
    let groups := groupsOf ids source
    let kept := keptRows ids source
    let widths := groups.flatMap fun group => resolved env store group.staying
    match placement with
    | none => some ⟨[(sourceId, kept)], assign widths⟩
    | some placement =>
      let carried := groups.flatMap Group.taken
      match store.layoutsWithin carried with
      | none => none
      | some within =>
        -- A widget cannot be dropped onto a page of its own.
        if within.contains placement.layout then none
        else
          let base := if placement.layout = sourceId then some kept
            else Dict.get store.layouts placement.layout
          match base with
          | none => none
          | some target =>
            match placement.column with
            | none =>
              some ⟨planned sourceId kept placement.layout
                  (splice target placement.row (openedRows env groups)),
                assign (widths ++ groups.flatMap fun group => resolved env store group.taken)⟩
            | some column =>
              match element target placement.row with
              | none => none
              | some destination =>
                let widgets := splice destination.widgets column carried
                let row := { destination with
                  widgets := widgets
                  height := (groups.map fun group => round group.row.height).foldl max destination.height }
                let share := widgetWidthSubdivisions / widgets.length
                let asked := widgets.map fun id =>
                  if ids.contains id then min share (store.widthOf id) else store.widthOf id
                let keep := (List.range carried.length).map fun offset => column + offset
                some ⟨planned sourceId kept placement.layout (target.set placement.row.toNat row),
                  assign (widths ++ widgets.zip (env.resolveWidths asked keep))⟩

/-- Whether a plan describes the layouts that are already there, down to the widths. -/
def planIsCurrent (plan : WidgetMovePlan) : Bool :=
  (plan.layouts.all fun (layout, rows) => decide (Dict.get store.layouts layout = some rows)) &&
    plan.widths.all fun (id, width) =>
      (Dict.get store.widgets id).any fun widget => decide (widget.width = width)

/-- The widgets with the widths they are given. -/
def withWidths (widgets : Dict String (Widget γ)) (widths : Dict String ℚ) : Dict String (Widget γ) :=
  widgets.map fun (id, widget) =>
    (id, { widget with width := (Dict.get widths id).getD widget.width })

/-- The rows of a plan, made of the widgets its ids name. -/
def withRows (layouts : Dict String (List WidgetRow)) (entry : String × List WidgetRow) :
    Dict String (List WidgetRow) :=
  match Dict.get layouts entry.1 with
  | none => layouts
  | some _ => Dict.set layouts entry.1 (entry.2.map fun row =>
    { row with widgets := row.widgets.filter fun id => (Dict.get store.widgets id).isSome })

def moveWidgets (ids : List String) (placement : WidgetPlacement) : Store γ :=
  match planWidgetsMove env store ids (some placement) with
  | none => store
  | some plan =>
    if planIsCurrent store plan then store
    else
      { layouts := plan.layouts.foldl (withRows store) store.layouts
        widgets := withWidths store.widgets plan.widths }

/-! ## 3. Groups -/

/-- How grouping deals the taken widgets across the pages of the new widget. -/
inductive GroupSplit where
  | widget
  | row
  | none

/-- A page before it has an id: its name, and for each of its rows the source row and the widgets. -/
abbrev Draft : Type := String × List (WidgetRow × List String)

def drafts (split : GroupSplit) (groups : List Group) : List Draft :=
  match split with
  | .widget => groups.flatMap fun group =>
    group.taken.map fun id => (store.nameOf id, [(group.row, [id])])
  | .row => groups.map fun group => ("", [(group.row, group.taken)])
  | .none => [("", groups.map fun group => (group.row, group.taken))]

/-- `pageRow`, for the `j`-th row of the `i`-th page. -/
def pageRow (i j : Nat) (row : WidgetRow × List String) : WidgetRow where
  id := env.v7 (2 * Nat.pair i j + 2)
  height := row.1.height
  collapsed := row.1.collapsed
  widgets := row.2

/-- The pages with their rows, under fresh ids. -/
def draftedPages (drafts : List Draft) : List (WidgetPage × List WidgetRow) :=
  drafts.zipIdx.map fun draft =>
    (⟨env.v7 (2 * draft.2 + 1), draft.1.1⟩, draft.1.2.zipIdx.map fun row => pageRow env draft.2 row.2 row.1)

/-- One page holding every row of `pages`, in order. -/
def foldedPage (pages : List (WidgetPage × List WidgetRow)) : WidgetPage × List WidgetRow :=
  (⟨(pages.head?.map fun page => page.1.id).getD (env.v7 1), ""⟩, pages.flatMap Prod.snd)

/-- A section folds several pages into its one. -/
def withPages (type : PagesWidgetType) (pages : List (WidgetPage × List WidgetRow)) :
    List (WidgetPage × List WidgetRow) :=
  match type with
  | .section_ => [foldedPage env pages]
  | _ => pages

/-- The rows with the holder in place of what it took, standing where the first stood. -/
def groupedRows (ids : List String) (holder : String) (height : Option ℚ) : Bool → List WidgetRow → List WidgetRow
  | _, [] => []
  | first, row :: rows =>
    if taken ids row = [] then row :: groupedRows ids holder height first rows
    else if first then
      { row with
        height := height.getD row.height
        widgets := splice (remaining ids row) (row.widgets.findIdx fun id => ids.contains id) [holder] } ::
        groupedRows ids holder height false rows
    else if remaining ids row = [] then groupedRows ids holder height false rows
    else { row with widgets := remaining ids row } :: groupedRows ids holder height false rows

structure WidgetGroupPlan (γ : Type) where
  rows : List WidgetRow
  holderId : String
  holder : Widget γ
  /-- The layouts of the holder's pages. -/
  pages : List (String × List WidgetRow)
  /-- The widths of the widgets that were taken and of those that stay. -/
  widths : Dict String ℚ
  /-- The widgets that were taken, which lose their frames if so asked. -/
  taken : List String

def sectionHeight (type : PagesWidgetType) (groups : List Group) : Option ℚ :=
  if type = .section_ ∧ (groups.head?.map Group.staying) = some [] then
    some (48 + (groups.map fun group => group.row.height).sum + 8 * (groups.length - 1))
  else none

/-- The widths of what a page row takes. -/
def filled (ids : List String) : List (String × ℚ) := ids.zip (env.filledWidths (ids.map store.widthOf))

def planWidgetsGroup (rows : List WidgetRow) (ids : List String) (type : PagesWidgetType)
    (split : GroupSplit) : Option (WidgetGroupPlan γ) :=
  let groups := groupsOf ids rows
  if groups = [] then none
  else
    let drafts := drafts store split groups
    let pages := withPages env type (draftedPages env drafts)
    let width := min ((groups.head?.map fun group => (group.taken.map store.widthOf).sum).getD 0)
      widgetWidthSubdivisions
    some {
      rows := groupedRows ids (env.v7 0) (sectionHeight type groups) true rows
      holderId := env.v7 0
      holder := { env.createWidget type with
        type := some type
        pages := pages.map Prod.fst
        width := width }
      pages := pages.map fun page => (page.1.id, page.2)
      widths := assign ((drafts.flatMap fun draft => draft.2.flatMap fun row => filled env store row.2) ++
        groups.tail.flatMap fun group => resolved env store group.staying)
      taken := groups.flatMap Group.taken }

/-- The widgets as a group leaves them, the holder among them. -/
def regrouped (frameless : Bool) (plan : WidgetGroupPlan γ) : Dict String (Widget γ) :=
  (withWidths store.widgets plan.widths).map (fun (id, widget) =>
    (id, { widget with
      frameless := if plan.taken.contains id then frameless || widget.frameless else widget.frameless })) ++
    [(plan.holderId, plan.holder)]

/-- The first layout that a plan can be made for, with the plan. -/
def firstPlan {α : Type} (plan : List WidgetRow → Option α) :
    List (String × List WidgetRow) → Option (String × List WidgetRow × α)
  | [] => none
  | (layout, rows) :: rest =>
    match plan rows with
    | some found => some (layout, rows, found)
    | none => firstPlan plan rest

def groupWidgets (ids : List String) (type : PagesWidgetType) (split : GroupSplit) (frameless : Bool) :
    Store γ :=
  if ids = [] then store
  else
    match firstPlan (fun rows => planWidgetsGroup env store rows ids type split) store.layouts with
    | none => store
    | some (layout, _, plan) =>
      { layouts := Dict.set store.layouts layout plan.rows ++ plan.pages
        widgets := regrouped store frameless plan }

structure WidgetUngroupPlan where
  rows : List WidgetRow
  pages : List String
  widths : Dict String ℚ

/-- The rows with the pages' rows in place of the widget. -/
def ungroupedRows (id : String) (landing : List WidgetRow) : List WidgetRow → List WidgetRow
  | [] => []
  | row :: rows =>
    if row.widgets.contains id then
      if remaining [id] row = [] then landing ++ rows
      else { row with widgets := remaining [id] row } :: landing ++ rows
    else row :: ungroupedRows id landing rows

def planWidgetUngroup (rows : List WidgetRow) (id : String) : Option WidgetUngroupPlan :=
  match rows.find? fun row => row.widgets.contains id with
  | none => none
  | some row =>
    match (Dict.get store.widgets id).map pagesOf with
    | none => none
    | some [] => none
    | some pages =>
      some {
        rows := ungroupedRows id (pages.flatMap fun page => store.rowsOf page.id) rows
        pages := pages.map WidgetPage.id
        widths := assign (resolved env store (remaining [id] row)) }

def ungroupWidget (id : String) : Store γ :=
  match firstPlan (fun rows => planWidgetUngroup env store rows id) store.layouts with
  | none => store
  | some (layout, _, plan) =>
    { layouts := (Dict.set store.layouts layout plan.rows).filter fun entry => !plan.pages.contains entry.1
      widgets := Dict.erase (withWidths store.widgets plan.widths) id }

/-! ## 4. Well-formed workspaces -/

/-- What `f` gives of every row of every layout. -/
def total (f : WidgetRow → List String) (layouts : Dict String (List WidgetRow)) : List String :=
  layouts.flatMap fun entry => entry.2.flatMap f

def slots (layouts : Dict String (List WidgetRow)) : List String := total WidgetRow.widgets layouts

def rowIds (layouts : Dict String (List WidgetRow)) : List String := total (fun row => [row.id]) layouts

def pageIds (widgets : Dict String (Widget γ)) : List String :=
  widgets.flatMap fun entry => (pagesOf entry.2).map WidgetPage.id

/-- **The ids are distinct, every widget is in exactly one slot, every page has its layout and no layout
    is inside itself.** -/
structure Wf (store : Store γ) : Prop where
  layouts : (Dict.keys store.layouts).Nodup
  widgets : (Dict.keys store.widgets).Nodup
  rows : (rowIds store.layouts).Nodup
  slots : (slots store.layouts).Perm (Dict.keys store.widgets)
  pages : (rootLayoutId :: pageIds store.widgets).Perm (Dict.keys store.layouts)
  /-- How deep a layout is. -/
  depth : ∃ rank : String → Nat, ∀ layout page, page ∈ store.inner layout → rank layout < rank page

/-- The ids that `v7` makes are new. -/
structure Env.Fresh (env : Env γ) (store : Store γ) : Prop where
  injective : Function.Injective env.v7
  layouts : ∀ n, env.v7 n ∉ Dict.keys store.layouts
  widgets : ∀ n, env.v7 n ∉ Dict.keys store.widgets
  rows : ∀ n, env.v7 n ∉ rowIds store.layouts

variable {store}

theorem Wf.not_inside_itself (h : Wf store) (layout : String) :
    ¬ Relation.TransGen (Closure.Step store.inner) layout layout := by
  obtain ⟨rank, hrank⟩ := h.depth
  exact Closure.not_reaches_self hrank layout

theorem mem_pagesWithin {ids : List String} {page : String} :
    page ∈ store.pagesWithin ids ↔ ∃ id ∈ ids, ∃ widget, Dict.get store.widgets id = some widget ∧
      page ∈ (pagesOf widget).map WidgetPage.id := by
  unfold Store.pagesWithin
  rw [List.mem_flatMap]
  constructor
  · intro h
    obtain ⟨id, hid, hpage⟩ := h
    cases hfound : Dict.get store.widgets id with
    | none => simp [hfound] at hpage
    | some widget => exact ⟨id, hid, widget, hfound, by simpa [hfound] using hpage⟩
  · intro h
    obtain ⟨id, hid, widget, hfound, hpage⟩ := h
    exact ⟨id, hid, by simpa [hfound] using hpage⟩

theorem mem_slots {layouts : Dict String (List WidgetRow)} {id : String} :
    id ∈ slots layouts ↔ ∃ entry ∈ layouts, ∃ row ∈ entry.2, id ∈ row.widgets := by
  simp [slots, total, List.mem_flatMap]

theorem mem_pageIds {widgets : Dict String (Widget γ)} {page : String} :
    page ∈ pageIds widgets ↔ ∃ entry ∈ widgets, page ∈ (pagesOf entry.2).map WidgetPage.id := by
  simp [pageIds, List.mem_flatMap]

theorem Wf.mem_keys_of_inner (h : Wf store) {layout page : String} (hpage : page ∈ store.inner layout) :
    page ∈ Dict.keys store.layouts := by
  obtain ⟨id, -, widget, hwidget, hpage⟩ := mem_pagesWithin.mp hpage
  exact h.pages.mem_iff.mp (List.mem_cons_of_mem _ (mem_pageIds.mpr ⟨_, Dict.mem_of_get hwidget, hpage⟩))

/-- **What `layoutsWithin` finds is what is inside.** -/
theorem mem_layoutsWithin {ids : List String} {within : List String}
    (h : store.layoutsWithin ids = some within) (layout : String) :
    layout ∈ within ↔ ∃ page ∈ store.pagesWithin ids,
      Relation.ReflTransGen (Closure.Step store.inner) page layout := by
  obtain ⟨hall, hmem⟩ := Closure.gather_eq_some h
  rw [hmem]
  constructor
  · intro hlayout
    obtain ⟨page, hpage, found, hfound, hlayout⟩ := hlayout
    obtain ⟨below, hbelow, rfl⟩ := Option.map_eq_some_iff.mp hfound
    rcases List.mem_cons.mp hlayout with rfl | hlayout
    · exact ⟨layout, hpage, .refl⟩
    · exact ⟨page, hpage, ((Closure.mem_collect hbelow layout).mp hlayout).to_reflTransGen⟩
  · intro hlayout
    obtain ⟨page, hpage, hreach⟩ := hlayout
    obtain ⟨found, hfound⟩ := hall page hpage
    obtain ⟨below, hbelow, rfl⟩ := Option.map_eq_some_iff.mp hfound
    refine ⟨page, hpage, _, hfound, ?_⟩
    rcases Relation.reflTransGen_iff_eq_or_transGen.mp hreach with rfl | hreach
    · exact List.mem_cons_self
    · exact List.mem_cons_of_mem _ ((Closure.mem_collect hbelow layout).mpr hreach)

/-- **`layoutsWithin` ends.** -/
theorem Wf.layoutsWithin_isSome (h : Wf store) (ids : List String) : (store.layoutsWithin ids).isSome = true := by
  refine Closure.gather_isSome fun page _ => ?_
  rw [Option.isSome_map]
  have hcard : (Dict.keys store.layouts).toFinset.card = store.layouts.length := by
    rw [List.toFinset_card_of_nodup h.layouts, Dict.keys, List.length_map]
  rw [← hcard]
  refine Closure.collect_isSome _ (fun layout hlayout => ?_) fun layout _ => h.not_inside_itself layout
  rw [List.mem_toFinset]
  obtain ⟨above, -, hstep⟩ := Relation.TransGen.tail'_iff.mp hlayout
  exact h.mem_keys_of_inner hstep

theorem Wf.reached (h : Wf store) {layout : String} (hlayout : layout ∈ Dict.keys store.layouts) :
    Relation.ReflTransGen (Closure.Step store.inner) rootLayoutId layout := by
  obtain ⟨rank, hrank⟩ := h.depth
  induction hn : rank layout using Nat.strong_induction_on generalizing layout with
  | h n ih =>
    rcases List.mem_cons.mp (h.pages.mem_iff.mpr hlayout) with rfl | hpage
    · exact .refl
    · -- The page's widget is in a slot of a layout that is less deep.
      obtain ⟨⟨id, widget⟩, hwidget, hpage⟩ := mem_pageIds.mp hpage
      have hslot := h.slots.mem_iff.mpr (Dict.mem_keys_of_mem hwidget)
      obtain ⟨⟨above, rows⟩, habove, row, hrow, hid⟩ := mem_slots.mp hslot
      have hinner : layout ∈ store.inner above := by
        refine mem_pagesWithin.mpr ⟨id, ?_, widget, Dict.get_of_mem h.widgets hwidget, hpage⟩
        unfold Store.rowsOf
        rw [Dict.get_of_mem h.layouts habove, Option.getD_some]
        exact List.mem_flatMap.mpr ⟨row, hrow, hid⟩
      have hlt := hrank above layout hinner
      exact (ih (rank above) (hn ▸ hlt) (Dict.mem_keys_of_mem habove) rfl).tail hinner

end Ceres.Console.Layout
