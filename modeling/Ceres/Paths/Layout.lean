/-
  File:      Ceres/Paths/Layout.lean
  Subject:   FOLDER LAYOUTS (`paths.py`: `_LAYOUT_ATOMS`, `PathLayout.__init__`).

  A layout is a template for folders. Its atoms are those a folder's name can be read back from; they name
  calendar fields from the year down, each of its segments is one level of folders.

  * `Symbol.field` -- the field a symbol is read back into;
  * `segmentsOf` -- the levels of a layout; `textOf_segments` -- their texts, with separators between them,
    are the layout's;
  * `PathLayout` -- what the constructor accepts; `PathLayout.unit` -- the finest field of a layout.
-/
import Ceres.Paths.Template

namespace Ceres.Paths

open Ceres.Library

/-! ## 1. Fields -/

/-- The fields of `_Capture`s. -/
inductive Field where
  | year | month | day | hour | minute | second | doy | hour12 | meridiem
  deriving DecidableEq

/-- `_CALENDAR`. -/
def CALENDAR : List Field := [.year, .month, .day, .hour, .minute, .second]

/-- The field of a layout's atom, `none` for the symbols a layout does not take. -/
def Symbol.field : Symbol → Option Field
  | yyyy | yy => some .year
  | MM | M | MMM | MMMM => some .month
  | DDD => some .doy
  | dd | d => some .day
  | HH | H => some .hour
  | hh | h => some .hour12
  | a => some .meridiem
  | mm => some .minute
  | ss => some .second
  | S _ | EEE | EEEE | Z | XX => none

/-- `_LAYOUT_NAMES`. -/
def LAYOUT_NAMES : List String := ["component", "mount", "project", "host"]

/-- `_VARIABLE_WIDTH`. -/
def Part.variable : Part → Bool
  | atom (.symbol .M) | atom (.symbol .d) | atom (.symbol .H) | atom (.symbol .h) | atom (.symbol .MMMM) => true
  | _ => false

def Part.field : Part → Option Field
  | atom (.symbol s) => s.field
  | _ => none

/-- The atoms a folder can use. -/
def Part.layable : Part → Bool
  | literal _ => true
  | atom (.symbol s) => s.field.isSome
  | atom (.epoch _) => false
  | atom (.name n) => decide (n ∈ LAYOUT_NAMES)

/-! ## 2. Segments -/

/-- The pieces of a literal in front of the segments that follow: the first one ends a segment. -/
def consPieces : List Text → List (List Part) → List (List Part)
  | [], segments => segments
  | [piece], segment :: segments => (.literal piece :: segment) :: segments
  | piece :: pieces, segments => [.literal piece] :: consPieces pieces segments

/-- The levels of a layout. -/
def segmentsOf : List Part → List (List Part)
  | [] => [[]]
  | .literal text :: rest => consPieces (text.splitOn '/') (segmentsOf rest)
  | .atom a :: rest =>
    match segmentsOf rest with
    | [] => [[.atom a]]
    | segment :: segments => (.atom a :: segment) :: segments

theorem consPieces_ne_nil (texts : List Text) {segments : List (List Part)} (h : segments ≠ []) :
    consPieces texts segments ≠ [] := by
  fun_induction consPieces texts segments with
  | case1 segments => exact h
  | case2 piece segment segments => simp
  | case3 piece pieces segments _ ih => simp

theorem segmentsOf_ne_nil : ∀ parts : List Part, segmentsOf parts ≠ []
  | [] => by simp [segmentsOf]
  | .literal text :: rest => consPieces_ne_nil _ (segmentsOf_ne_nil rest)
  | .atom a :: rest => by
    rw [segmentsOf]
    split <;> simp

section Segments

variable (when : Moment) (values : Values)

theorem textOf_consPieces : ∀ {pieces : List Text} {segments : List (List Part)}, pieces ≠ [] → segments ≠ [] →
    ['/'].intercalate ((consPieces pieces segments).map (textOf when values)) =
      ['/'].intercalate pieces ++ ['/'].intercalate (segments.map (textOf when values))
  | [], _, hne, _ => absurd rfl hne
  | [piece], [], _, hne => absurd rfl hne
  | [piece], [segment], _, _ => by
    rw [consPieces, List.map_cons, List.map_nil, List.map_cons, List.map_nil, List.intercalate_singleton,
      List.intercalate_singleton, List.intercalate_singleton]
    rfl
  | [piece], segment :: next :: segments, _, _ => by
    rw [consPieces, List.map_cons, List.map_cons, List.map_cons, List.map_cons, List.intercalate_cons_cons,
      List.intercalate_cons_cons, List.intercalate_singleton, textOf_cons, List.append_assoc, List.append_assoc,
      List.append_assoc]
    rfl
  | piece :: next :: pieces, segments, _, hne => by
    have hrest := textOf_consPieces (List.cons_ne_nil next pieces) hne
    have hpiece : textOf when values [.literal piece] = piece := List.append_nil _
    have hmap : (consPieces (next :: pieces) segments).map (textOf when values) ≠ [] :=
      fun hnil => consPieces_ne_nil _ hne (List.map_eq_nil_iff.mp hnil)
    rw [consPieces, List.map_cons, hpiece, List.intercalate_cons_of_ne_nil hmap, hrest, List.intercalate_cons_cons,
      List.append_assoc, List.append_assoc, List.append_assoc]
    simp

/-- **The levels' texts with separators between them** are the layout's. -/
theorem textOf_segments : ∀ parts : List Part,
    ['/'].intercalate ((segmentsOf parts).map (textOf when values)) = textOf when values parts
  | [] => rfl
  | .literal text :: rest => by
    have hpieces : text.splitOn '/' ≠ [] := List.splitOn_ne_nil '/' text
    rw [segmentsOf, textOf_consPieces when values hpieces (segmentsOf_ne_nil rest), List.intercalate_splitOn,
      textOf_segments rest, textOf_cons]
    rfl
  | .atom a :: rest => by
    have hrest := textOf_segments rest
    rw [segmentsOf, textOf_cons, ← hrest]
    split
    · rename_i hnil
      exact absurd hnil (segmentsOf_ne_nil rest)
    · rename_i segment segments hsegments
      rw [hsegments]
      cases segments with
      | nil =>
        rw [List.map_cons, List.map_nil, List.map_cons, List.map_nil, List.intercalate_singleton,
          List.intercalate_singleton, textOf_cons]
      | cons next segments =>
        rw [List.map_cons, List.map_cons, List.map_cons, List.map_cons, List.intercalate_cons_cons,
          List.intercalate_cons_cons, textOf_cons, List.append_assoc, List.append_assoc, List.append_assoc]

theorem mem_consPieces {pieces : List Text} {segments : List (List Part)} {segment : List Part}
    (h : segment ∈ consPieces pieces segments) : segment ∈ segments ∨ (∃ piece ∈ pieces, segment = [.literal piece]) ∨
      ∃ piece ∈ pieces, ∃ first ∈ segments, segment = .literal piece :: first := by
  fun_induction consPieces pieces segments with
  | case1 segments => exact .inl h
  | case2 piece first segments =>
    rcases List.mem_cons.mp h with rfl | h
    · exact .inr (.inr ⟨piece, List.mem_cons_self, first, List.mem_cons_self, rfl⟩)
    · exact .inl (List.mem_cons_of_mem _ h)
  | case3 piece pieces segments _ ih =>
    rcases List.mem_cons.mp h with rfl | h
    · exact .inr (.inl ⟨piece, List.mem_cons_self, rfl⟩)
    · rcases ih h with hmem | ⟨other, hother, heq⟩ | ⟨other, hother, hfirst⟩
      · exact .inl hmem
      · exact .inr (.inl ⟨other, List.mem_cons_of_mem _ hother, heq⟩)
      · exact .inr (.inr ⟨other, List.mem_cons_of_mem _ hother, hfirst⟩)

theorem mem_segmentsOf : ∀ {parts segment : List Part} {part : Part}, segment ∈ segmentsOf parts → part ∈ segment →
    (∃ piece, '/' ∉ piece ∧ part = .literal piece) ∨ (∃ a, part = .atom a) ∧ part ∈ parts
  | [], segment, part, hsegment, hpart => by
    obtain rfl := List.mem_singleton.mp hsegment
    cases hpart
  | .literal text :: rest, segment, part, hsegment, hpart => by
    have hrest : ∀ {segment}, segment ∈ segmentsOf rest → part ∈ segment →
        (∃ piece, '/' ∉ piece ∧ part = .literal piece) ∨ (∃ a, part = .atom a) ∧ part ∈ Part.literal text :: rest :=
      fun hsegment hpart => (mem_segmentsOf hsegment hpart).imp_right (And.imp_right (List.mem_cons_of_mem _))
    rcases mem_consPieces hsegment with hmem | ⟨piece, hpiece, rfl⟩ | ⟨piece, hpiece, first, hfirst, rfl⟩
    · exact hrest hmem hpart
    · exact .inl ⟨piece, not_mem_of_mem_splitOn hpiece, List.mem_singleton.mp hpart⟩
    · rcases List.mem_cons.mp hpart with rfl | hpart
      · exact .inl ⟨piece, not_mem_of_mem_splitOn hpiece, rfl⟩
      · exact hrest hfirst hpart
  | .atom a :: rest, segment, part, hsegment, hpart => by
    have hrest : ∀ {segment}, segment ∈ segmentsOf rest → part ∈ segment →
        (∃ piece, '/' ∉ piece ∧ part = .literal piece) ∨ (∃ a, part = .atom a) ∧ part ∈ Part.atom a :: rest :=
      fun hsegment hpart => (mem_segmentsOf hsegment hpart).imp_right (And.imp_right (List.mem_cons_of_mem _))
    rw [segmentsOf] at hsegment
    split at hsegment
    · rename_i hnil
      exact absurd hnil (segmentsOf_ne_nil rest)
    · rename_i first segments hsegments
      rw [hsegments] at hrest
      rcases List.mem_cons.mp hsegment with rfl | hmem
      · rcases List.mem_cons.mp hpart with rfl | hpart
        · exact .inr ⟨⟨a, rfl⟩, List.mem_cons_self⟩
        · exact hrest List.mem_cons_self hpart
      · exact hrest (List.mem_cons_of_mem _ hmem) hpart

theorem slash_not_mem_segments {parts segment : List Part}
    (h : ∀ a, Part.atom a ∈ parts → '/' ∉ (Part.atom a).text when values) (hsegment : segment ∈ segmentsOf parts) :
    '/' ∉ textOf when values segment := by
  intro hslash
  obtain ⟨text, htext, hslash⟩ := List.mem_flatten.mp hslash
  obtain ⟨part, hpart, rfl⟩ := List.mem_map.mp htext
  rcases mem_segmentsOf hsegment hpart with ⟨piece, hplain, rfl⟩ | ⟨⟨a, rfl⟩, hmem⟩
  · exact hplain hslash
  · exact h a hmem hslash

end Segments

/-- Two atoms of variable width stand side by side. -/
def crowded : List Part → Bool
  | one :: two :: rest => one.variable && two.variable || crowded (two :: rest)
  | _ => false

/-- A 12-hour hour and its half of the day keep together. -/
def halved (segment : List Part) : Bool :=
  let has := fun s => decide (Part.atom (.symbol s) ∈ segment)
  (has .hh || has .h) == has .a

/-- The layout names the calendar field. -/
def namesField (parts : List Part) (field : Field) : Bool :=
  let has := fun f => parts.any fun part => decide (part.field = some f)
  match field with
  | .month => has .month || has .doy
  | .day => has .day || has .doy
  | .hour => has .hour || has .hour12
  | f => has f

def calendarOf (parts : List Part) : List Field := CALENDAR.filter (namesField parts)

/-- A layout as its constructor accepts it. -/
structure PathLayout extends PathTemplate where
  layable : parts.all Part.layable = true
  apart : (segmentsOf parts).any crowded = false
  halves : (segmentsOf parts).all halved = true
  /-- From the year down, without a gap. -/
  calendar : calendarOf parts = CALENDAR.take (calendarOf parts).length

/-- The finest calendar field. -/
def PathLayout.unit (layout : PathLayout) : Option Field := (calendarOf layout.parts).getLast?

def PathLayout.splitsFinerThan (layout : PathLayout) (unit : Field) : Bool :=
  layout.unit.any fun finest => decide (CALENDAR.idxOf unit < CALENDAR.idxOf finest)

end Ceres.Paths
