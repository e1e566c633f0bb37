/-
  File:      Ceres/Console/FreshIds.lean
  Subject:   A WIDGET'S COPY UNDER FRESH IDS (`console/app/workspace/layout.ts`: `withFreshIds`,
             `withFreshPage`; `console/app/workspace/models.ts`: the widget models).

  A widget holds pages, pages hold rows and rows hold widgets. Of a widget's fields the model names
  those that carry ids; the others are one value, `rest`. A `v7` is the next of a sequence, and the
  number of those drawn is passed along.

  * `Widget.withFreshIds` -- the copy;
  * `Widget.ids`, `Widget.queries`, `Widget.sections` -- what stands anywhere inside a widget;
  * `ids_sublist` -- outside the queries, the copy's ids are ids drawn, in the order drawn;
  * `queries_withFreshIds` -- every query stands in the copy as it was;
  * `Separate` -- a copy that shares no id and differs in nothing else;
  * **`separate_withFreshIds_iff`** -- which widgets have one;
  * `query_keeps_ids` -- a widget whose condition answers to one id in both.
-/
import Ceres.Console.Query
import Ceres.Console.Layout

namespace Ceres.Console.FreshIds

open Ceres.Console.Layout (PagesWidgetType)
open Ceres.Console.Query

/-! ## 1. Widgets -/

/-- The kinds that show records, each narrowed by a filter bar's query. -/
inductive RecordWidgetType where
  | messages
  | particles
  | alerts
  | logs
  deriving DecidableEq, Repr

/-- The kinds that hold nothing with an id. -/
inductive PlainWidgetType where
  | procedures
  | meter
  | video
  | files
  deriving DecidableEq, Repr

structure ChartWidgetSeries (α : Type) where
  id : String
  rest : α
  deriving Repr

structure ChartWidgetParticle (α : Type) where
  series : List (ChartWidgetSeries α)
  rest : α
  deriving Repr

structure ButtonAction (α : Type) where
  id : String
  rest : α
  deriving Repr

mutual

inductive Widget (α : Type) where
  | record (id : String) (type : RecordWidgetType) (query : FilterQuery α) (rest : α)
  | plain (id : String) (type : PlainWidgetType) (rest : α)
  | chart (id : String) (particles : List (ChartWidgetParticle α)) (rest : α)
  | controls (id : String) (buttons : List (ButtonAction α)) (rest : α)
  | pages (id : String) (type : PagesWidgetType) (pages : List (WidgetPage α)) (rest : α)

structure WidgetPage (α : Type) where
  id : String
  name : String
  layout : List (WidgetRow α)

structure WidgetRow (α : Type) where
  id : String
  widgets : List (Widget α)
  rest : α

end

variable {α : Type}

/-! ## 2. The copy -/

section
variable (v7 : Nat → String)

/-- `list.map` of a function that draws ids. -/
def mapFresh {β γ : Type} (f : β → Nat → γ × Nat) : List β → Nat → List γ × Nat
  | [], n => ([], n)
  | x :: rest, n =>
    let first := f x n
    let others := mapFresh f rest first.2
    (first.1 :: others.1, others.2)

def freshSeries (series : ChartWidgetSeries α) (n : Nat) : ChartWidgetSeries α × Nat :=
  ({ series with id := v7 n }, n + 1)

def freshParticle (particle : ChartWidgetParticle α) (n : Nat) : ChartWidgetParticle α × Nat :=
  let series := mapFresh (freshSeries v7) particle.series n
  ({ particle with series := series.1 }, series.2)

def freshButton (button : ButtonAction α) (n : Nat) : ButtonAction α × Nat :=
  ({ button with id := v7 n }, n + 1)

/-- One page holding every row of `pages`, in order, under the first one's id. -/
def foldedPage (pages : List (WidgetPage α)) (n : Nat) : WidgetPage α × Nat :=
  match pages with
  | [] => (⟨v7 n, "", []⟩, n + 1)
  | first :: rest => (⟨first.id, "", (first :: rest).flatMap (·.layout)⟩, n)

/-- What `withPages` puts for the pages a widget held: a section's are folded into one. -/
def heldPages (type : PagesWidgetType) (pages : List (WidgetPage α)) (n : Nat) : List (WidgetPage α) × Nat :=
  match type with
  | .carousel => (pages, n)
  | .tabs => (pages, n)
  | .section_ =>
    let page := foldedPage v7 pages n
    ([page.1], page.2)

mutual

/-- A copy of a widget under fresh ids, all the way down. -/
def Widget.withFreshIds : Widget α → Nat → Widget α × Nat
  | .record _ type query rest, n => (.record (v7 n) type query rest, n + 1)
  | .plain _ type rest, n => (.plain (v7 n) type rest, n + 1)
  | .chart _ particles rest, n =>
    let copies := mapFresh (freshParticle v7) particles (n + 1)
    (.chart (v7 n) copies.1 rest, copies.2)
  | .controls _ buttons rest, n =>
    let copies := mapFresh (freshButton v7) buttons (n + 1)
    (.controls (v7 n) copies.1 rest, copies.2)
  | .pages _ type pages rest, n =>
    let copies := withFreshPages pages (n + 1)
    let held := heldPages v7 type copies.1 copies.2
    (.pages (v7 n) type held.1 rest, held.2)

def withFreshPages : List (WidgetPage α) → Nat → List (WidgetPage α) × Nat
  | [], n => ([], n)
  | page :: rest, n =>
    let first := page.withFreshPage n
    let others := withFreshPages rest first.2
    (first.1 :: others.1, others.2)

/-- A copy of a page under fresh ids. -/
def WidgetPage.withFreshPage : WidgetPage α → Nat → WidgetPage α × Nat
  | ⟨_, name, layout⟩, n =>
    let rows := withFreshRows layout (n + 1)
    (⟨v7 n, name, rows.1⟩, rows.2)

def withFreshRows : List (WidgetRow α) → Nat → List (WidgetRow α) × Nat
  | [], n => ([], n)
  | row :: rest, n =>
    let first := row.withFreshRow n
    let others := withFreshRows rest first.2
    (first.1 :: others.1, others.2)

def WidgetRow.withFreshRow : WidgetRow α → Nat → WidgetRow α × Nat
  | ⟨_, widgets, rest⟩, n =>
    let copies := withFreshWidgets widgets (n + 1)
    (⟨v7 n, copies.1, rest⟩, copies.2)

def withFreshWidgets : List (Widget α) → Nat → List (Widget α) × Nat
  | [], n => ([], n)
  | widget :: rest, n =>
    let first := widget.withFreshIds n
    let others := withFreshWidgets rest first.2
    (first.1 :: others.1, others.2)

end

end

/-! ## 3. What stands inside a widget -/

mutual

/-- Every id outside the queries. -/
def Widget.ownIds : Widget α → List String
  | .record id _ _ _ => [id]
  | .plain id _ _ => [id]
  | .chart id particles _ => id :: particles.flatMap fun particle => particle.series.map (·.id)
  | .controls id buttons _ => id :: buttons.map (·.id)
  | .pages id _ pages _ => id :: pagesOwnIds pages

def pagesOwnIds : List (WidgetPage α) → List String
  | [] => []
  | page :: rest => page.ownIds ++ pagesOwnIds rest

def WidgetPage.ownIds : WidgetPage α → List String
  | ⟨id, _, layout⟩ => id :: rowsOwnIds layout

def rowsOwnIds : List (WidgetRow α) → List String
  | [] => []
  | row :: rest => row.ownIds ++ rowsOwnIds rest

def WidgetRow.ownIds : WidgetRow α → List String
  | ⟨id, widgets, _⟩ => id :: widgetsOwnIds widgets

def widgetsOwnIds : List (Widget α) → List String
  | [] => []
  | widget :: rest => widget.ownIds ++ widgetsOwnIds rest

end

mutual

def Widget.queries : Widget α → List (FilterQuery α)
  | .record _ _ query _ => [query]
  | .plain _ _ _ => []
  | .chart _ _ _ => []
  | .controls _ _ _ => []
  | .pages _ _ pages _ => pagesQueries pages

def pagesQueries : List (WidgetPage α) → List (FilterQuery α)
  | [] => []
  | page :: rest => page.queries ++ pagesQueries rest

def WidgetPage.queries : WidgetPage α → List (FilterQuery α)
  | ⟨_, _, layout⟩ => rowsQueries layout

def rowsQueries : List (WidgetRow α) → List (FilterQuery α)
  | [] => []
  | row :: rest => row.queries ++ rowsQueries rest

def WidgetRow.queries : WidgetRow α → List (FilterQuery α)
  | ⟨_, widgets, _⟩ => widgetsQueries widgets

def widgetsQueries : List (Widget α) → List (FilterQuery α)
  | [] => []
  | widget :: rest => widget.queries ++ widgetsQueries rest

end

/-- Every `id` field anywhere inside a widget. -/
def Widget.ids (widget : Widget α) : List String := widget.ownIds ++ widget.queries.flatMap queryIds

mutual

def Widget.sections : Widget α → List (List (WidgetPage α))
  | .record _ _ _ _ => []
  | .plain _ _ _ => []
  | .chart _ _ _ => []
  | .controls _ _ _ => []
  | .pages _ type pages _ => (if type = .section_ then [pages] else []) ++ pagesSections pages

def pagesSections : List (WidgetPage α) → List (List (WidgetPage α))
  | [] => []
  | page :: rest => page.sections ++ pagesSections rest

def WidgetPage.sections : WidgetPage α → List (List (WidgetPage α))
  | ⟨_, _, layout⟩ => rowsSections layout

def rowsSections : List (WidgetRow α) → List (List (WidgetPage α))
  | [] => []
  | row :: rest => row.sections ++ rowsSections rest

def WidgetRow.sections : WidgetRow α → List (List (WidgetPage α))
  | ⟨_, widgets, _⟩ => widgetsSections widgets

def widgetsSections : List (Widget α) → List (List (WidgetPage α))
  | [] => []
  | widget :: rest => widget.sections ++ widgetsSections rest

end

def ChartWidgetSeries.erased (series : ChartWidgetSeries α) : ChartWidgetSeries α := { series with id := "" }

def ChartWidgetParticle.erased (particle : ChartWidgetParticle α) : ChartWidgetParticle α :=
  { particle with series := particle.series.map ChartWidgetSeries.erased }

def ButtonAction.erased (button : ButtonAction α) : ButtonAction α := { button with id := "" }

mutual

/-- A widget without its ids. -/
def Widget.erased : Widget α → Widget α
  | .record _ type query rest => .record "" type (Query.erased query) rest
  | .plain _ type rest => .plain "" type rest
  | .chart _ particles rest => .chart "" (particles.map ChartWidgetParticle.erased) rest
  | .controls _ buttons rest => .controls "" (buttons.map ButtonAction.erased) rest
  | .pages _ type pages rest => .pages "" type (pagesErased pages) rest

def pagesErased : List (WidgetPage α) → List (WidgetPage α)
  | [] => []
  | page :: rest => page.erased :: pagesErased rest

def WidgetPage.erased : WidgetPage α → WidgetPage α
  | ⟨_, name, layout⟩ => ⟨"", name, rowsErased layout⟩

def rowsErased : List (WidgetRow α) → List (WidgetRow α)
  | [] => []
  | row :: rest => row.erased :: rowsErased rest

def WidgetRow.erased : WidgetRow α → WidgetRow α
  | ⟨_, widgets, rest⟩ => ⟨"", widgetsErased widgets, rest⟩

def widgetsErased : List (Widget α) → List (Widget α)
  | [] => []
  | widget :: rest => widget.erased :: widgetsErased rest

end

/-- What a section is documented to hold, and `foldedPage` makes: one page, without a name. -/
def Folded (pages : List (WidgetPage α)) : Prop := ∃ page, pages = [page] ∧ page.name = ""

/-! ## 4. The ids drawn -/

section
variable (v7 : Nat → String)

/-- The ids drawn from the `n`th up to the `m`th. -/
def issued (n m : Nat) : List String := (List.range' n (m - n)).map v7

/-- The ids are some of those drawn between `n` and `m`, in the order drawn. -/
structure Draws (ids : List String) (n m : Nat) : Prop where
  le : n ≤ m
  sublist : ids.Sublist (issued v7 n m)

variable {v7}

theorem issued_append {n m k : Nat} (hnm : n ≤ m) (hmk : m ≤ k) :
    issued v7 n m ++ issued v7 m k = issued v7 n k := by
  have hstart : m = n + (m - n) := by omega
  have hlength : m - n + (k - m) = k - n := by omega
  unfold issued
  rw [← List.map_append, ← hlength, ← List.range'_append_1, ← hstart]

theorem Draws.nil (n : Nat) : Draws v7 [] n n := ⟨le_rfl, List.nil_sublist _⟩

theorem Draws.one (n : Nat) : Draws v7 [v7 n] n (n + 1) := by
  refine ⟨Nat.le_succ n, ?_⟩
  rw [issued, Nat.add_sub_cancel_left]
  exact List.Sublist.refl _

theorem Draws.append {first second : List String} {n m k : Nat} (hfirst : Draws v7 first n m)
    (hsecond : Draws v7 second m k) : Draws v7 (first ++ second) n k where
  le := hfirst.le.trans hsecond.le
  sublist := by
    rw [← issued_append hfirst.le hsecond.le]
    exact hfirst.sublist.append hsecond.sublist

theorem Draws.cons {ids : List String} {n m : Nat} (h : Draws v7 ids (n + 1) m) : Draws v7 (v7 n :: ids) n m :=
  (Draws.one n).append h

theorem Draws.of_sublist {ids others : List String} {n m : Nat} (h : Draws v7 ids n m)
    (hsub : others.Sublist ids) : Draws v7 others n m := ⟨h.le, hsub.trans h.sublist⟩

theorem draws_mapFresh {β γ : Type} {f : β → Nat → γ × Nat} {g : γ → List String}
    (hf : ∀ x n, Draws v7 (g (f x n).1) n (f x n).2) :
    ∀ (list : List β) (n : Nat), Draws v7 ((mapFresh f list n).1.flatMap g) n (mapFresh f list n).2
  | [], n => Draws.nil n
  | x :: rest, n => by
      have hfirst := hf x n
      have hrest := draws_mapFresh hf rest (f x n).2
      exact hfirst.append hrest

theorem rowsOwnIds_append : ∀ rows others : List (WidgetRow α),
    rowsOwnIds (rows ++ others) = rowsOwnIds rows ++ rowsOwnIds others
  | [], others => rfl
  | row :: rest, others => by
      rw [List.cons_append, rowsOwnIds, rowsOwnIds, rowsOwnIds_append rest others, List.append_assoc]

/-- Folding drops the ids of all pages but the first. -/
theorem layouts_sublist : ∀ pages : List (WidgetPage α),
    (rowsOwnIds (pages.flatMap (·.layout))).Sublist (pagesOwnIds pages)
  | [] => List.Sublist.refl _
  | ⟨id, name, layout⟩ :: rest => by
      have hrest := layouts_sublist rest
      rw [List.flatMap_cons, rowsOwnIds_append, pagesOwnIds, WidgetPage.ownIds]
      exact (List.sublist_cons_self id _).append hrest

variable {pages : List (WidgetPage α)}

theorem draws_heldPages (type : PagesWidgetType) {n m : Nat} (h : Draws v7 (pagesOwnIds pages) n m) :
    Draws v7 (pagesOwnIds (heldPages v7 type pages m).1) n (heldPages v7 type pages m).2 := by
  cases type with
  | carousel => exact h
  | tabs => exact h
  | section_ =>
    cases pages with
    | nil => exact h.append (Draws.one m)
    | cons first rest =>
      refine h.of_sublist ?_
      obtain ⟨id, name, layout⟩ := first
      have hrest := layouts_sublist rest
      simp only [heldPages, foldedPage, pagesOwnIds, WidgetPage.ownIds, List.flatMap_cons, rowsOwnIds_append,
        List.append_nil, List.cons_append]
      exact ((List.Sublist.refl _).append hrest).cons_cons id

mutual

/-- **The copy's own ids are ids drawn for it**, each once. -/
theorem ids_sublist : ∀ (widget : Widget α) (n : Nat),
    Draws v7 (widget.withFreshIds v7 n).1.ownIds n (widget.withFreshIds v7 n).2
  | .record _ _ _ _, n => Draws.one n
  | .plain _ _ _, n => Draws.one n
  | .chart _ particles _, n => by
      have hseries : ∀ (series : ChartWidgetSeries α) n,
          Draws v7 [(freshSeries v7 series n).1.id] n (freshSeries v7 series n).2 :=
        fun _ n => Draws.one n
      have hparticle : ∀ (particle : ChartWidgetParticle α) n,
          Draws v7 ((freshParticle v7 particle n).1.series.map (·.id)) n (freshParticle v7 particle n).2 := by
        intro particle n
        have h := draws_mapFresh (f := freshSeries v7) (g := fun series => [series.id]) hseries particle.series n
        rwa [← List.map_eq_flatMap] at h
      exact (draws_mapFresh (f := freshParticle v7) (g := fun particle => particle.series.map (·.id)) hparticle
        particles (n + 1)).cons
  | .controls _ buttons _, n => by
      have hbutton : ∀ (button : ButtonAction α) n,
          Draws v7 [(freshButton v7 button n).1.id] n (freshButton v7 button n).2 :=
        fun _ n => Draws.one n
      have h := draws_mapFresh (f := freshButton v7) (g := fun button => [button.id]) hbutton buttons (n + 1)
      rw [← List.map_eq_flatMap] at h
      exact h.cons
  | .pages _ type pages _, n => (draws_heldPages type (pagesIds_sublist pages (n + 1))).cons

theorem pagesIds_sublist : ∀ (pages : List (WidgetPage α)) (n : Nat),
    Draws v7 (pagesOwnIds (withFreshPages v7 pages n).1) n (withFreshPages v7 pages n).2
  | [], n => Draws.nil n
  | ⟨_, _, layout⟩ :: rest, n => (rowsIds_sublist layout (n + 1)).cons.append (pagesIds_sublist rest _)

theorem rowsIds_sublist : ∀ (rows : List (WidgetRow α)) (n : Nat),
    Draws v7 (rowsOwnIds (withFreshRows v7 rows n).1) n (withFreshRows v7 rows n).2
  | [], n => Draws.nil n
  | ⟨_, widgets, _⟩ :: rest, n => (widgetsIds_sublist widgets (n + 1)).cons.append (rowsIds_sublist rest _)

theorem widgetsIds_sublist : ∀ (widgets : List (Widget α)) (n : Nat),
    Draws v7 (widgetsOwnIds (withFreshWidgets v7 widgets n).1) n (withFreshWidgets v7 widgets n).2
  | [], n => Draws.nil n
  | widget :: rest, n => (ids_sublist widget n).append (widgetsIds_sublist rest _)

end

/-! ## 5. The queries -/

theorem rowsQueries_append : ∀ rows others : List (WidgetRow α),
    rowsQueries (rows ++ others) = rowsQueries rows ++ rowsQueries others
  | [], others => rfl
  | row :: rest, others => by
      rw [List.cons_append, rowsQueries, rowsQueries, rowsQueries_append rest others, List.append_assoc]

theorem layouts_queries : ∀ pages : List (WidgetPage α),
    rowsQueries (pages.flatMap (·.layout)) = pagesQueries pages
  | [] => rfl
  | ⟨id, name, layout⟩ :: rest => by
      rw [List.flatMap_cons, rowsQueries_append, layouts_queries rest]
      rfl

theorem pagesQueries_heldPages (type : PagesWidgetType) (pages : List (WidgetPage α)) (n : Nat) :
    pagesQueries (heldPages v7 type pages n).1 = pagesQueries pages := by
  cases type with
  | carousel => rfl
  | tabs => rfl
  | section_ =>
    cases pages with
    | nil => rfl
    | cons first rest =>
      have hrows := layouts_queries (first :: rest)
      have hheld : pagesQueries (heldPages v7 .section_ (first :: rest) n).1 =
          rowsQueries ((first :: rest).flatMap (·.layout)) ++ [] := rfl
      rw [hheld, List.append_nil, hrows]

mutual

/-- **Every query stands in the copy as it was**, ids and all. -/
theorem queries_withFreshIds : ∀ (widget : Widget α) (n : Nat),
    (widget.withFreshIds v7 n).1.queries = widget.queries
  | .record _ _ _ _, _ => rfl
  | .plain _ _ _, _ => rfl
  | .chart _ _ _, _ => rfl
  | .controls _ _ _, _ => rfl
  | .pages _ type pages _, n =>
      (pagesQueries_heldPages type _ _).trans (pagesQueries_withFreshPages pages (n + 1))

theorem pagesQueries_withFreshPages : ∀ (pages : List (WidgetPage α)) (n : Nat),
    pagesQueries (withFreshPages v7 pages n).1 = pagesQueries pages
  | [], _ => rfl
  | ⟨_, _, layout⟩ :: rest, n =>
      congrArg₂ (· ++ ·) (rowsQueries_withFreshRows layout (n + 1)) (pagesQueries_withFreshPages rest _)

theorem rowsQueries_withFreshRows : ∀ (rows : List (WidgetRow α)) (n : Nat),
    rowsQueries (withFreshRows v7 rows n).1 = rowsQueries rows
  | [], _ => rfl
  | ⟨_, widgets, _⟩ :: rest, n =>
      congrArg₂ (· ++ ·) (widgetsQueries_withFreshWidgets widgets (n + 1)) (rowsQueries_withFreshRows rest _)

theorem widgetsQueries_withFreshWidgets : ∀ (widgets : List (Widget α)) (n : Nat),
    widgetsQueries (withFreshWidgets v7 widgets n).1 = widgetsQueries widgets
  | [], _ => rfl
  | widget :: rest, n =>
      congrArg₂ (· ++ ·) (queries_withFreshIds widget n) (widgetsQueries_withFreshWidgets rest _)

end

/-! ## 6. Everything else -/

theorem erased_mapFresh {β : Type} {f : β → Nat → β × Nat} {g : β → β}
    (hf : ∀ (x : β) (n : Nat), g (f x n).1 = g x) :
    ∀ (list : List β) (n : Nat), (mapFresh f list n).1.map g = list.map g
  | [], _ => rfl
  | x :: rest, n => congrArg₂ List.cons (hf x n) (erased_mapFresh hf rest _)

variable (v7) in
theorem heldPages_of_folded {type : PagesWidgetType} (h : type = .section_ → Folded pages)
    (n : Nat) : (heldPages v7 type pages n).1 = pages := by
  cases type with
  | carousel => rfl
  | tabs => rfl
  | section_ =>
    obtain ⟨⟨id, name, layout⟩, rfl, hname⟩ := h rfl
    have hblank : name = "" := hname
    subst hblank
    show [(⟨id, "", layout ++ []⟩ : WidgetPage α)] = _
    rw [List.append_nil]

theorem folded_withFreshPages (h : Folded pages) (n : Nat) : Folded (withFreshPages v7 pages n).1 := by
  obtain ⟨⟨id, name, layout⟩, rfl, hname⟩ := h
  exact ⟨_, rfl, hname⟩

mutual

/-- **Where every section holds one page without a name, only ids are new.** -/
theorem erased_withFreshIds : ∀ (widget : Widget α) (n : Nat), (∀ pages ∈ widget.sections, Folded pages) →
    (widget.withFreshIds v7 n).1.erased = widget.erased
  | .record _ _ _ _, _, _ => rfl
  | .plain _ _ _, _, _ => rfl
  | .chart _ particles rest, n, _ => by
      have hseries : ∀ (series : ChartWidgetSeries α) n, (freshSeries v7 series n).1.erased = series.erased :=
        fun _ _ => rfl
      have hparticle : ∀ (particle : ChartWidgetParticle α) n,
          (freshParticle v7 particle n).1.erased = particle.erased := by
        intro particle n
        have hmap := erased_mapFresh (f := freshSeries v7) (g := ChartWidgetSeries.erased) hseries particle.series n
        exact congrArg (fun list => (⟨list, particle.rest⟩ : ChartWidgetParticle α)) hmap
      have hmap := erased_mapFresh (f := freshParticle v7) (g := ChartWidgetParticle.erased) hparticle particles (n + 1)
      exact congrArg (fun list => Widget.chart "" list rest) hmap
  | .controls _ buttons rest, n, _ => by
      have hbutton : ∀ (button : ButtonAction α) n, (freshButton v7 button n).1.erased = button.erased :=
        fun _ _ => rfl
      have hmap := erased_mapFresh (f := freshButton v7) (g := ButtonAction.erased) hbutton buttons (n + 1)
      exact congrArg (fun list => Widget.controls "" list rest) hmap
  | .pages _ type pages rest, n, h => by
      have hinner : ∀ inner ∈ pagesSections pages, Folded inner :=
        fun inner hmem => h inner (List.mem_append_right _ hmem)
      have hself : type = .section_ → Folded (withFreshPages v7 pages (n + 1)).1 := by
        intro htype
        refine folded_withFreshPages (h pages ?_) (n + 1)
        rw [Widget.sections, if_pos htype]
        exact List.mem_append_left _ (List.mem_singleton.mpr rfl)
      have hheld := heldPages_of_folded v7 hself (withFreshPages v7 pages (n + 1)).2
      have hpages := pagesErased_withFreshPages pages (n + 1) hinner
      simp only [Widget.withFreshIds, Widget.erased, hheld, hpages]

theorem pagesErased_withFreshPages : ∀ (pages : List (WidgetPage α)) (n : Nat),
    (∀ inner ∈ pagesSections pages, Folded inner) →
    pagesErased (withFreshPages v7 pages n).1 = pagesErased pages
  | [], _, _ => rfl
  | ⟨_, name, layout⟩ :: rest, n, h => by
      have hrows := rowsErased_withFreshRows layout (n + 1) fun inner hmem =>
        h inner (List.mem_append_left _ hmem)
      have hrest := pagesErased_withFreshPages rest (withFreshRows v7 layout (n + 1)).2 fun inner hmem =>
        h inner (List.mem_append_right _ hmem)
      exact congrArg₂ (fun rows pages => (⟨"", name, rows⟩ : WidgetPage α) :: pages) hrows hrest

theorem rowsErased_withFreshRows : ∀ (rows : List (WidgetRow α)) (n : Nat),
    (∀ inner ∈ rowsSections rows, Folded inner) → rowsErased (withFreshRows v7 rows n).1 = rowsErased rows
  | [], _, _ => rfl
  | ⟨_, widgets, rest⟩ :: others, n, h => by
      have hwidgets := widgetsErased_withFreshWidgets widgets (n + 1) fun inner hmem =>
        h inner (List.mem_append_left _ hmem)
      have hothers := rowsErased_withFreshRows others (withFreshWidgets v7 widgets (n + 1)).2 fun inner hmem =>
        h inner (List.mem_append_right _ hmem)
      exact congrArg₂ (fun widgets rows => (⟨"", widgets, rest⟩ : WidgetRow α) :: rows) hwidgets hothers

theorem widgetsErased_withFreshWidgets : ∀ (widgets : List (Widget α)) (n : Nat),
    (∀ inner ∈ widgetsSections widgets, Folded inner) →
    widgetsErased (withFreshWidgets v7 widgets n).1 = widgetsErased widgets
  | [], _, _ => rfl
  | widget :: rest, n, h => by
      have hwidget := erased_withFreshIds widget n fun inner hmem => h inner (List.mem_append_left _ hmem)
      have hrest := widgetsErased_withFreshWidgets rest (widget.withFreshIds v7 n).2 fun inner hmem =>
        h inner (List.mem_append_right _ hmem)
      exact congrArg₂ List.cons hwidget hrest

end

/-! ## 7. Sections -/

theorem rowsSections_append : ∀ rows others : List (WidgetRow α),
    rowsSections (rows ++ others) = rowsSections rows ++ rowsSections others
  | [], others => rfl
  | row :: rest, others => by
      rw [List.cons_append, rowsSections, rowsSections, rowsSections_append rest others, List.append_assoc]

theorem layouts_sections : ∀ pages : List (WidgetPage α),
    rowsSections (pages.flatMap (·.layout)) = pagesSections pages
  | [] => rfl
  | ⟨id, name, layout⟩ :: rest => by
      rw [List.flatMap_cons, rowsSections_append, layouts_sections rest]
      rfl

variable (v7) in
theorem heldPages_folded (type : PagesWidgetType) (pages : List (WidgetPage α)) (n : Nat) :
    (type = .section_ → Folded (heldPages v7 type pages n).1) ∧
      pagesSections (heldPages v7 type pages n).1 = pagesSections pages := by
  cases type with
  | carousel => exact ⟨fun h => PagesWidgetType.noConfusion h, rfl⟩
  | tabs => exact ⟨fun h => PagesWidgetType.noConfusion h, rfl⟩
  | section_ =>
    cases pages with
    | nil => exact ⟨fun _ => ⟨_, rfl, rfl⟩, rfl⟩
    | cons first rest =>
      have hrows := layouts_sections (first :: rest)
      have hheld : pagesSections (heldPages v7 .section_ (first :: rest) n).1 =
          rowsSections ((first :: rest).flatMap (·.layout)) ++ [] := rfl
      exact ⟨fun _ => ⟨_, rfl, rfl⟩, by rw [hheld, List.append_nil, hrows]⟩

mutual

/-- **Every section of the copy holds one page without a name.** -/
theorem sections_withFreshIds : ∀ (widget : Widget α) (n : Nat),
    ∀ pages ∈ (widget.withFreshIds v7 n).1.sections, Folded pages
  | .record _ _ _ _, _ => fun _ h => absurd h List.not_mem_nil
  | .plain _ _ _, _ => fun _ h => absurd h List.not_mem_nil
  | .chart _ _ _, _ => fun _ h => absurd h List.not_mem_nil
  | .controls _ _ _, _ => fun _ h => absurd h List.not_mem_nil
  | .pages _ type pages _, n => by
      intro inner hmem
      obtain ⟨hfolded, hsame⟩ := heldPages_folded v7 type (withFreshPages v7 pages (n + 1)).1
        (withFreshPages v7 pages (n + 1)).2
      rcases List.mem_append.mp hmem with hself | hinner
      · by_cases htype : type = .section_
        · rw [if_pos htype, List.mem_singleton] at hself
          rw [hself]
          exact hfolded htype
        · rw [if_neg htype] at hself
          exact absurd hself List.not_mem_nil
      · rw [hsame] at hinner
        exact pagesSections_withFreshPages pages (n + 1) inner hinner

theorem pagesSections_withFreshPages : ∀ (pages : List (WidgetPage α)) (n : Nat),
    ∀ inner ∈ pagesSections (withFreshPages v7 pages n).1, Folded inner
  | [], _ => fun _ h => absurd h List.not_mem_nil
  | ⟨_, _, layout⟩ :: rest, n => fun inner hmem =>
      (List.mem_append.mp hmem).elim (rowsSections_withFreshRows layout (n + 1) inner)
        (pagesSections_withFreshPages rest _ inner)

theorem rowsSections_withFreshRows : ∀ (rows : List (WidgetRow α)) (n : Nat),
    ∀ inner ∈ rowsSections (withFreshRows v7 rows n).1, Folded inner
  | [], _ => fun _ h => absurd h List.not_mem_nil
  | ⟨_, widgets, _⟩ :: rest, n => fun inner hmem =>
      (List.mem_append.mp hmem).elim (widgetsSections_withFreshWidgets widgets (n + 1) inner)
        (rowsSections_withFreshRows rest _ inner)

theorem widgetsSections_withFreshWidgets : ∀ (widgets : List (Widget α)) (n : Nat),
    ∀ inner ∈ widgetsSections (withFreshWidgets v7 widgets n).1, Folded inner
  | [], _ => fun _ h => absurd h List.not_mem_nil
  | widget :: rest, n => fun inner hmem =>
      (List.mem_append.mp hmem).elim (sections_withFreshIds widget n inner)
        (widgetsSections_withFreshWidgets rest _ inner)

end

mutual

theorem sections_erased : ∀ widget : Widget α, widget.erased.sections = widget.sections.map pagesErased
  | .record _ _ _ _ => rfl
  | .plain _ _ _ => rfl
  | .chart _ _ _ => rfl
  | .controls _ _ _ => rfl
  | .pages _ type pages _ => by
      have hpages := pagesSections_erased pages
      rw [Widget.erased, Widget.sections, Widget.sections, List.map_append, hpages]
      split <;> rfl

theorem pagesSections_erased : ∀ pages : List (WidgetPage α),
    pagesSections (pagesErased pages) = (pagesSections pages).map pagesErased
  | [] => rfl
  | ⟨_, _, layout⟩ :: rest => by
      have hlayout := rowsSections_erased layout
      have hrest := pagesSections_erased rest
      rw [pagesErased, WidgetPage.erased, pagesSections, pagesSections, WidgetPage.sections, WidgetPage.sections,
        List.map_append, hlayout, hrest]

theorem rowsSections_erased : ∀ rows : List (WidgetRow α),
    rowsSections (rowsErased rows) = (rowsSections rows).map pagesErased
  | [] => rfl
  | ⟨_, widgets, _⟩ :: rest => by
      have hwidgets := widgetsSections_erased widgets
      have hrest := rowsSections_erased rest
      rw [rowsErased, WidgetRow.erased, rowsSections, rowsSections, WidgetRow.sections, WidgetRow.sections,
        List.map_append, hwidgets, hrest]

theorem widgetsSections_erased : ∀ widgets : List (Widget α),
    widgetsSections (widgetsErased widgets) = (widgetsSections widgets).map pagesErased
  | [] => rfl
  | widget :: rest => by
      have hwidget := sections_erased widget
      have hrest := widgetsSections_erased rest
      rw [widgetsErased, widgetsSections, widgetsSections, List.map_append, hwidget, hrest]

end

theorem folded_erased_iff (pages : List (WidgetPage α)) : Folded (pagesErased pages) ↔ Folded pages := by
  constructor
  · rintro ⟨page, hpages, hname⟩
    cases pages with
    | nil => exact absurd hpages (List.cons_ne_nil page []).symm
    | cons first rest =>
      cases rest with
      | nil =>
        obtain ⟨id, name, layout⟩ := first
        have herased : WidgetPage.erased ⟨id, name, layout⟩ = page := (List.cons.inj hpages).1
        exact ⟨_, rfl, by rw [← herased] at hname; exact hname⟩
      | cons second others => exact absurd (List.cons.inj hpages).2 (List.cons_ne_nil _ _)
  · rintro ⟨⟨id, name, layout⟩, rfl, hname⟩
    exact ⟨_, rfl, hname⟩

/-! ## 8. The copy shares nothing -/

/-- The copy's ids differ from each other and from the original's, and nothing else differs. -/
structure Separate (original copy : Widget α) : Prop where
  distinct : copy.ids.Nodup
  apart : ∀ id ∈ copy.ids, id ∉ original.ids
  same : copy.erased = original.erased

variable (hv7 : Function.Injective v7)
include hv7

/-- **A copy shares no identity with its original** exactly if no record widget inside holds a condition
    or block, and every section holds its one nameless page. -/
theorem separate_withFreshIds_iff (widget : Widget α) (n : Nat) (hfresh : ∀ k, n ≤ k → v7 k ∉ widget.ids) :
    Separate widget (widget.withFreshIds v7 n).1 ↔
      (∀ query ∈ widget.queries, query = []) ∧ ∀ pages ∈ widget.sections, Folded pages := by
  have hdrawn : Draws v7 (widget.withFreshIds v7 n).1.ownIds n (widget.withFreshIds v7 n).2 :=
    ids_sublist widget n
  have hqueries : (widget.withFreshIds v7 n).1.queries = widget.queries := queries_withFreshIds widget n
  constructor
  · intro h
    constructor
    · intro query hquery
      by_contra hne
      -- an id of the query stands in the copy and in the original
      obtain ⟨id, hid⟩ := List.exists_mem_of_ne_nil _ (mt (queryIds_eq_nil_iff query).mp hne)
      have hmem : id ∈ widget.queries.flatMap queryIds := List.mem_flatMap.mpr ⟨query, hquery, hid⟩
      have hcopy : id ∈ (widget.withFreshIds v7 n).1.ids := by
        rw [Widget.ids, hqueries]
        exact List.mem_append_right _ hmem
      exact h.apart id hcopy (List.mem_append_right _ hmem)
    · intro pages hpages
      have herased : pagesErased pages ∈ (widget.withFreshIds v7 n).1.erased.sections := by
        rw [h.same, sections_erased]
        exact List.mem_map_of_mem hpages
      rw [sections_erased] at herased
      obtain ⟨copied, hcopied, hsame⟩ := List.mem_map.mp herased
      have hfolded := sections_withFreshIds widget n copied hcopied
      rw [← folded_erased_iff, ← hsame, folded_erased_iff]
      exact hfolded
  · rintro ⟨hempty, hfolded⟩
    have hids : (widget.withFreshIds v7 n).1.ids = (widget.withFreshIds v7 n).1.ownIds := by
      have hnone : widget.queries.flatMap queryIds = [] :=
        List.flatMap_eq_nil_iff.mpr fun query hquery => by rw [hempty query hquery]; rfl
      rw [Widget.ids, hqueries, hnone, List.append_nil]
    refine ⟨?_, ?_, erased_withFreshIds widget n hfolded⟩
    · rw [hids]
      refine hdrawn.sublist.nodup ?_
      rw [issued]
      have hpositions : (List.range' n ((widget.withFreshIds v7 n).2 - n)).Nodup := List.nodup_range'
      exact hpositions.map hv7
    · intro id hid
      rw [hids] at hid
      obtain ⟨k, hk, rfl⟩ := List.mem_map.mp (hdrawn.sublist.subset hid)
      exact hfresh k (List.mem_range'_1.mp hk).1

end

/-- A sequence of ids for the two runs below. -/
def drawn (k : Nat) : String := String.ofList (List.replicate k 'a')

theorem drawn_injective : Function.Injective drawn := by
  intro k l h
  have hlists : List.replicate k 'a' = List.replicate l 'a' := by
    rw [← String.toList_ofList (l := List.replicate k 'a'), ← String.toList_ofList (l := List.replicate l 'a')]
    exact congrArg String.toList h
  have hlengths := congrArg List.length hlists
  rwa [List.length_replicate, List.length_replicate] at hlengths

theorem drawn_not_mem {ids : List String} (h : ids.all (fun id => id.toList.contains 'b') = true) (k : Nat) :
    drawn k ∉ ids := by
  intro hmem
  have hb : 'b' ∈ (drawn k).toList := List.contains_iff_mem.mp (List.all_eq_true.mp h _ hmem)
  rw [drawn, String.toList_ofList] at hb
  exact absurd (List.eq_of_mem_replicate hb) (by decide)

/-- A section around a bar of buttons. -/
def boxedControls : Widget Nat :=
  .pages "b1" .section_ [⟨"b2", "", [⟨"b3", [.controls "b4" [⟨"b5", 1⟩, ⟨"b6", 2⟩] 3], 4⟩]⟩] 5

theorem separate_withFreshIds_boxedControls :
    Separate boxedControls (boxedControls.withFreshIds drawn 0).1 ↔
      (∀ query ∈ boxedControls.queries, query = []) ∧ ∀ pages ∈ boxedControls.sections, Folded pages :=
  separate_withFreshIds_iff drawn_injective boxedControls 0
    fun k _ => drawn_not_mem (by decide) k

def narrowedMessages : Widget Nat := .record "b1" .messages [.condition "b2" "address" 1] 2

/-- The copy's condition answers to the original's id, although the ids drawn are new. -/
theorem query_keeps_ids :
    Function.Injective drawn ∧ (∀ k, drawn k ∉ narrowedMessages.ids) ∧
    "b2" ∈ (narrowedMessages.withFreshIds drawn 0).1.ids ∧ "b2" ∈ narrowedMessages.ids ∧
    ¬ Separate narrowedMessages (narrowedMessages.withFreshIds drawn 0).1 :=
  ⟨drawn_injective, drawn_not_mem (by decide), by decide, by decide,
    fun h => h.apart "b2" (by decide) (by decide)⟩

end Ceres.Console.FreshIds
