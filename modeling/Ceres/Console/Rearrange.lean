/-
  File:      Ceres/Console/Rearrange.lean
  Subject:   REARRANGING LOSES AND DOUBLES NOTHING.

  What a layout holds is counted with multiplicity, in sums over its rows: a row that is replaced, opened or
  closed changes the sum by what it holds.

  * `total_set` -- a replaced layout changes the sums by what it held and holds;
  * `kept_slots`, `kept_ids`, `splice_flatMap`, `opened_ids` -- what is taken out of rows and put into them;
  * `move_spec`, `group_spec`, `ungroup_spec` -- each request on a well-formed workspace;
  * **`rearranged`** -- every request leaves a well-formed workspace with the same widgets, the holder of a
    group apart, and empties no row;
  * `empty_row_stays` -- a row that was empty before is left so.
-/
import Ceres.Console.Layout

namespace Ceres.Console.Layout

open Ceres.Library

set_option linter.unusedSectionVars false

variable {γ : Type} {env : Env γ} {store : Store γ}

/-! ## 1. Sums over rows -/

theorem coe_flatMap_cons {α : Type} (f : α → List String) (first : α) (rest : List α) :
    (((first :: rest).flatMap f : List String) : Multiset String) =
      (f first : Multiset String) + (rest.flatMap f : List String) := by
  rw [List.flatMap_cons, ← Multiset.coe_add]

theorem coe_flatMap_append {α : Type} (f : α → List String) (first rest : List α) :
    (((first ++ rest).flatMap f : List String) : Multiset String) =
      (first.flatMap f : List String) + (rest.flatMap f : List String) := by
  rw [List.flatMap_append, ← Multiset.coe_add]

variable {layouts : Dict String (List WidgetRow)}

/-- **A replaced layout** changes a sum by what it held and holds. -/
theorem total_set (f : WidgetRow → List String) {layout : String} {rows : List WidgetRow}
    (h : Dict.get layouts layout = some rows) (after : List WidgetRow) :
    (total f (Dict.set layouts layout after) : Multiset String) + (rows.flatMap f : List String) =
      (total f layouts : Multiset String) + (after.flatMap f : List String) := by
  induction layouts with
  | nil => cases h
  | cons entry layouts ih =>
    rw [Dict.get_cons] at h
    unfold total at ih ⊢
    by_cases hkey : entry.1 = layout
    · rw [if_pos hkey, Option.some.injEq] at h
      rw [Dict.set, if_pos hkey, coe_flatMap_cons, coe_flatMap_cons, h]
      abel
    · rw [if_neg hkey] at h
      rw [Dict.set, if_neg hkey, coe_flatMap_cons, coe_flatMap_cons, add_assoc, ih h]
      abel

theorem splice_flatMap {α : Type} (f : α → List String) (list added : List α) (start : Int) :
    ((splice list start added).flatMap f : Multiset String) =
      (list.flatMap f : List String) + (added.flatMap f : List String) := by
  unfold splice
  simp only
  generalize (if start < 0 then ((list.length : Int) + start).toNat else min start.toNat list.length) = at_
  rw [coe_flatMap_append, coe_flatMap_append]
  conv_rhs => rw [← List.take_append_drop at_ list, coe_flatMap_append]
  abel

theorem mem_splice {α : Type} {list added : List α} {start : Int} {x : α} :
    x ∈ splice list start added ↔ x ∈ list ∨ x ∈ added := by
  unfold splice
  simp only
  generalize (if start < 0 then ((list.length : Int) + start).toNat else min start.toNat list.length) = at_
  rw [List.mem_append, List.mem_append]
  conv_rhs => rw [← List.take_append_drop at_ list, List.mem_append]
  tauto

theorem coe_splice (list added : List String) (start : Int) :
    (splice list start added : Multiset String) = (list : Multiset String) + (added : Multiset String) := by
  have h := splice_flatMap (fun id => [id]) list added start
  simpa using h

theorem set_flatMap (f : WidgetRow → List String) {rows : List WidgetRow} {i : Nat} {row : WidgetRow}
    (h : rows[i]? = some row) (after : WidgetRow) :
    ((rows.set i after).flatMap f : Multiset String) + (f row : Multiset String) =
      (rows.flatMap f : List String) + (f after : Multiset String) := by
  induction rows generalizing i with
  | nil => cases h
  | cons first rows ih =>
    cases i with
    | zero =>
      rw [List.getElem?_cons_zero, Option.some.injEq] at h
      rw [List.set_cons_zero, coe_flatMap_cons, coe_flatMap_cons, h]
      abel
    | succ i =>
      rw [List.getElem?_cons_succ] at h
      rw [List.set_cons_succ, coe_flatMap_cons, coe_flatMap_cons, add_assoc, ih h]
      abel

/-! ## 2. Widgets taken out of rows -/

theorem coe_remaining_taken (held : List String) (row : WidgetRow) :
    (remaining held row : Multiset String) + (taken held row : Multiset String) = (row.widgets : Multiset String) := by
  unfold remaining taken
  rw [add_comm, Multiset.coe_add, Multiset.coe_eq_coe]
  exact List.filter_append_perm _ _

/-- The ids of the rows that are taken whole. -/
def consumedIds (groups : List Group) : List String :=
  (groups.filter fun group => group.staying.isEmpty).map fun group => group.row.id

theorem consumedIds_cons (group : Group) (groups : List Group) : consumedIds (group :: groups) =
      (if group.staying.isEmpty then [group.row.id] else []) ++ consumedIds groups := by
  unfold consumedIds
  rw [List.filter_cons]
  split <;> rfl

theorem keptRows_cons (held : List String) (row : WidgetRow) (rows : List WidgetRow) :
    keptRows held (row :: rows) = if remaining held row = [] then keptRows held rows
      else { row with widgets := remaining held row } :: keptRows held rows := by
  unfold keptRows
  rw [List.map_cons, List.filter_cons]
  by_cases h : remaining held row = []
  · simp [h]
  · simp [h]

theorem groupsOf_cons (held : List String) (row : WidgetRow) (rows : List WidgetRow) :
    groupsOf held (row :: rows) = if taken held row = [] then groupsOf held rows
      else ⟨row, taken held row, remaining held row⟩ :: groupsOf held rows := by
  unfold groupsOf
  rw [List.filterMap_cons]
  by_cases h : taken held row = []
  · simp [h]
  · simp [h]

theorem kept_slots (held : List String) (rows : List WidgetRow) :
    ((keptRows held rows).flatMap WidgetRow.widgets : Multiset String) +
        ((groupsOf held rows).flatMap Group.taken : List String) =
      (rows.flatMap WidgetRow.widgets : List String) := by
  induction rows with
  | nil => rfl
  | cons row rows ih =>
    -- An empty part adds nothing to its sum, so each row adds what stays and what is taken.
    have hkept : ((keptRows held (row :: rows)).flatMap WidgetRow.widgets : Multiset String) =
        (remaining held row : Multiset String) + ((keptRows held rows).flatMap WidgetRow.widgets : List String) := by
      rw [keptRows_cons]
      split
      · rename_i hempty
        rw [hempty]
        simp
      · rw [coe_flatMap_cons]
    have htaken : ((groupsOf held (row :: rows)).flatMap Group.taken : Multiset String) =
        (taken held row : Multiset String) + ((groupsOf held rows).flatMap Group.taken : List String) := by
      rw [groupsOf_cons]
      split
      · rename_i hempty
        rw [hempty]
        simp
      · rw [coe_flatMap_cons]
    rw [hkept, htaken, coe_flatMap_cons, ← coe_remaining_taken held row, ← ih]
    abel

theorem kept_ids (held : List String) (rows : List WidgetRow) :
    ((keptRows held rows).flatMap (fun row => [row.id]) : Multiset String) +
        (consumedIds (groupsOf held rows) : Multiset String) ≤
      (rows.flatMap (fun row => [row.id]) : List String) := by
  induction rows with
  | nil => exact le_refl _
  | cons row rows ih =>
    have hone : ∀ kept consumed : Multiset String, kept + consumed ≤ {row.id} →
        (kept + ((keptRows held rows).flatMap (fun row => [row.id]) : List String)) +
            (consumed + (consumedIds (groupsOf held rows) : Multiset String)) ≤
          {row.id} + (rows.flatMap (fun row => [row.id]) : List String) := by
      intro kept consumed h
      calc (kept + ((keptRows held rows).flatMap (fun row => [row.id]) : List String)) +
            (consumed + (consumedIds (groupsOf held rows) : Multiset String))
          = (kept + consumed) + (((keptRows held rows).flatMap (fun row => [row.id]) : List String) +
              (consumedIds (groupsOf held rows) : Multiset String)) := by abel
        _ ≤ {row.id} + (rows.flatMap (fun row => [row.id]) : List String) := add_le_add h ih
    have hconsumed : consumedIds (groupsOf held (row :: rows)) =
        (if taken held row ≠ [] ∧ remaining held row = [] then [row.id] else []) ++
          consumedIds (groupsOf held rows) := by
      rw [groupsOf_cons]
      by_cases htaken : taken held row = []
      · simp [htaken]
      · rw [if_neg htaken, consumedIds_cons]
        by_cases hremaining : remaining held row = []
        · simp [htaken, hremaining]
        · simp [hremaining]
    rw [coe_flatMap_cons, hconsumed, ← Multiset.coe_add, keptRows_cons]
    by_cases hremaining : remaining held row = []
    · rw [if_pos hremaining]
      have h := hone 0 ((if taken held row ≠ [] ∧ remaining held row = [] then [row.id] else [] :
        List String) : Multiset String) (by split <;> simp)
      simpa using h
    · rw [if_neg hremaining, coe_flatMap_cons, if_neg fun hboth => hremaining hboth.2]
      exact hone {row.id} 0 (by simp)

variable {held : List String}

theorem mem_keptRows {rows : List WidgetRow} {row : WidgetRow} (h : row ∈ keptRows held rows) :
    row.widgets ≠ [] ∧ ∃ before ∈ rows, row.widgets = remaining held before := by
  unfold keptRows at h
  obtain ⟨hmem, hne⟩ := List.mem_filter.mp h
  obtain ⟨before, hbefore, rfl⟩ := List.mem_map.mp hmem
  exact ⟨by simpa using hne, before, hbefore, rfl⟩

theorem mem_groupsOf {rows : List WidgetRow} {group : Group}
    (h : group ∈ groupsOf held rows) : group.row ∈ rows ∧ group.taken = taken held group.row ∧
      group.staying = remaining held group.row ∧ group.taken ≠ [] := by
  obtain ⟨row, hrow, hgroup⟩ := List.mem_filterMap.mp h
  split at hgroup
  · cases hgroup
  · rename_i hne
    cases hgroup
    exact ⟨hrow, rfl, rfl, hne⟩

theorem mem_carried {rows : List WidgetRow} {id : String}
    (h : id ∈ (groupsOf held rows).flatMap Group.taken) : id ∈ rows.flatMap WidgetRow.widgets := by
  obtain ⟨group, hgroup, hid⟩ := List.mem_flatMap.mp h
  obtain ⟨hrow, htaken, -, -⟩ := mem_groupsOf hgroup
  rw [htaken] at hid
  exact List.mem_flatMap.mpr ⟨_, hrow, List.mem_of_mem_filter hid⟩

theorem coe_cons (id : String) (rest : List String) :
    ((id :: rest : List String) : Multiset String) = {id} + (rest : Multiset String) := by
  rw [← Multiset.cons_coe, Multiset.singleton_add]

theorem opened_slots (groups : List Group) : ∀ k : Nat,
    ((groups.zipIdx k).map fun entry => openedRow env entry.1 entry.2).flatMap WidgetRow.widgets =
      groups.flatMap Group.taken := by
  induction groups with
  | nil => exact fun _ => rfl
  | cons group groups ih =>
    intro k
    rw [List.zipIdx_cons, List.map_cons, List.flatMap_cons, List.flatMap_cons, ih]
    rfl

theorem opened_ids (groups : List Group) : ∀ k : Nat,
    ((((groups.zipIdx k).map fun entry => openedRow env entry.1 entry.2).flatMap fun row => [row.id] :
      List String) : Multiset String) ≤ (consumedIds groups : Multiset String) +
        (((List.range' k groups.length).map env.v7 : List String) : Multiset String) := by
  induction groups with
  | nil => exact fun _ => le_refl _
  | cons group groups ih =>
    intro k
    have hrest := ih (k + 1)
    rw [List.zipIdx_cons, List.map_cons, coe_flatMap_cons, List.length_cons, List.range'_succ, List.map_cons,
      coe_cons (env.v7 k), consumedIds_cons]
    by_cases hempty : group.staying.isEmpty = true
    · have hid : (openedRow env group k).id = group.row.id := if_pos hempty
      rw [if_pos hempty, List.singleton_append, hid, coe_cons group.row.id (consumedIds groups),
        Multiset.coe_singleton, add_assoc]
      refine add_le_add_right (hrest.trans ?_) _
      rw [add_left_comm]
      exact Multiset.le_add_left _ _
    · have hid : (openedRow env group k).id = env.v7 k := if_neg hempty
      rw [if_neg hempty, List.nil_append, hid, Multiset.coe_singleton, add_left_comm]
      exact add_le_add_right hrest _

/-! ## 3. What a request may change -/

/-- **The workspace holds the same widgets after as before**, but for the ones that were added and removed:
    each in one slot, with its content but for its width and its frame; and no row was emptied. -/
structure Rearranged (before after : Store γ) (added removed : List String) : Prop where
  wf : Wf after
  slots : (slots after.layouts ++ removed).Perm (slots before.layouts ++ added)
  content : ∀ id widget, Dict.get before.widgets id = some widget → id ∉ removed →
    ∃ other, Dict.get after.widgets id = some other ∧
      other = { widget with
        width := other.width
        frameless := other.frameless }
  rows : ∀ layout row, row ∈ after.rowsOf layout → row.widgets = [] → ∃ other, row ∈ before.rowsOf other

theorem Rearranged.refl (h : Wf store) : Rearranged store store [] [] where
  wf := h
  slots := List.Perm.refl _
  content := fun _ widget hwidget _ => ⟨widget, hwidget, rfl⟩
  rows := fun layout _ hrow _ => ⟨layout, hrow⟩

theorem get_mapped {α β : Type} (f : String → α → β) (dict : Dict String α) (id : String) :
    Dict.get (dict.map fun entry => (entry.1, f entry.1 entry.2)) id = (Dict.get dict id).map (f id) := by
  induction dict with
  | nil => rfl
  | cons entry dict ih =>
    rw [List.map_cons, Dict.get_cons, Dict.get_cons]
    by_cases hkey : entry.1 = id
    · rw [if_pos hkey, if_pos hkey, Option.map_some, hkey]
    · rw [if_neg hkey, if_neg hkey, ih]

theorem keys_mapped {α β : Type} (f : String → α → β) (dict : Dict String α) :
    Dict.keys (dict.map fun entry => (entry.1, f entry.1 entry.2)) = Dict.keys dict := by
  unfold Dict.keys
  rw [List.map_map]
  rfl

theorem pageIds_mapped (f : String → Widget γ → Widget γ) (hf : ∀ id widget, pagesOf (f id widget) = pagesOf widget)
    (widgets : Dict String (Widget γ)) :
    pageIds (widgets.map fun entry => (entry.1, f entry.1 entry.2)) = pageIds widgets := by
  unfold pageIds
  rw [List.flatMap_map]
  refine List.flatMap_congr fun entry _ => ?_
  rw [hf]

def resized (widths : Dict String ℚ) (id : String) (widget : Widget γ) : Widget γ :=
  { widget with width := (Dict.get widths id).getD widget.width }

theorem withWidths_eq (widgets : Dict String (Widget γ)) (widths : Dict String ℚ) :
    withWidths widgets widths = widgets.map fun entry => (entry.1, resized widths entry.1 entry.2) := rfl

theorem pagesOf_resized (widths : Dict String ℚ) (id : String) (widget : Widget γ) :
    pagesOf (resized widths id widget) = pagesOf widget := rfl

/-- Ids that are new can be added to ids that are distinct. -/
theorem nodup_of_le_fresh {after before new : List String}
    (hle : (after : Multiset String) ≤ (before : Multiset String) + (new : Multiset String))
    (hbefore : before.Nodup) (hnew : new.Nodup) (hdisjoint : ∀ id ∈ new, id ∉ before) : after.Nodup := by
  rw [← Multiset.coe_nodup]
  refine Multiset.nodup_of_le hle ?_
  rw [Multiset.nodup_add]
  refine ⟨hbefore, hnew, ?_⟩
  rw [Multiset.disjoint_left]
  exact fun hold hmem => hdisjoint _ hmem hold

/-! ## 4. Moves -/

/-- `target` is `base` with the carried widgets in it, in rows that were there or under `ids`. -/
structure Landed (base target : List WidgetRow) (carried : List String) (ids : Multiset String) : Prop where
  slots : (target.flatMap WidgetRow.widgets : Multiset String) =
    (base.flatMap WidgetRow.widgets : List String) + (carried : Multiset String)
  rows : (target.flatMap (fun row => [row.id]) : Multiset String) ≤
    (base.flatMap (fun row => [row.id]) : List String) + ids
  empty : ∀ row ∈ target, row.widgets = [] → row ∈ base

/-- The ids that rows opened for the groups may have. -/
def openedIds (env : Env γ) (groups : List Group) : Multiset String :=
  (consumedIds groups : Multiset String) + (((List.range' 0 groups.length).map env.v7 : List String) : Multiset String)

theorem landed_opened {source base : List WidgetRow} (row : Int) :
    Landed base (splice base row (openedRows env (groupsOf held source)))
      ((groupsOf held source).flatMap Group.taken) (openedIds env (groupsOf held source)) where
  slots := by
    rw [splice_flatMap]
    unfold openedRows
    rw [opened_slots]
  rows := by
    rw [splice_flatMap]
    exact add_le_add_right (opened_ids _ 0) _
  empty := by
    intro found hfound hempty
    rcases mem_splice.mp hfound with hbase | hopened
    · exact hbase
    · obtain ⟨⟨group, i⟩, hentry, rfl⟩ := List.mem_map.mp hopened
      obtain ⟨-, -, -, hne⟩ := mem_groupsOf (List.fst_mem_of_mem_zipIdx hentry)
      exact absurd hempty hne

theorem landed_joined {base : List WidgetRow} {index column : Int} {destination : WidgetRow}
    (hdestination : element base index = some destination) {carried : List String} (hcarried : carried ≠ [])
    (height : ℚ) (ids : Multiset String) : Landed base (base.set index.toNat { destination with
        height := height, widgets := splice destination.widgets column carried }) carried ids := by
  have hrow : base[index.toNat]? = some destination := by
    unfold element at hdestination
    split at hdestination
    · cases hdestination
    · exact hdestination
  refine ⟨?_, ?_, ?_⟩
  · have hset := set_flatMap WidgetRow.widgets hrow { destination with
      height := height
      widgets := splice destination.widgets column carried }
    have hsplice := coe_splice destination.widgets carried column
    simp only at hset
    rw [hsplice, ← add_assoc, add_right_comm] at hset
    exact add_right_cancel hset
  · have hset := set_flatMap (fun row => [row.id]) hrow { destination with
      height := height
      widgets := splice destination.widgets column carried }
    rw [add_right_cancel hset]
    exact Multiset.le_add_right _ _
  · intro found hfound hempty
    rcases List.mem_or_eq_of_mem_set hfound with hbase | rfl
    · exact hbase
    · obtain ⟨id, hid⟩ := List.exists_mem_of_ne_nil _ hcarried
      have hmem : id ∈ splice destination.widgets column carried := mem_splice.mpr (.inr hid)
      rw [show splice destination.widgets column carried = [] from hempty] at hmem
      cases hmem

/-- **What a plan of a move says**: the widgets leave one layout and land in one they do not hold. -/
theorem planWidgetsMove_cases {ids : List String} {placement : WidgetPlacement} {plan : WidgetMovePlan}
    (h : planWidgetsMove env store ids (some placement) = some plan) :
    ∃ sourceId source within base target, (sourceId, source) ∈ store.layouts ∧
      store.layoutsWithin ((groupsOf ids source).flatMap Group.taken) = some within ∧
      placement.layout ∉ within ∧ (if placement.layout = sourceId then some (keptRows ids source)
        else Dict.get store.layouts placement.layout) = some base ∧
      plan.layouts = planned sourceId (keptRows ids source) placement.layout target ∧
      Landed base target ((groupsOf ids source).flatMap Group.taken) (openedIds env (groupsOf ids source)) := by
  unfold planWidgetsMove at h
  split at h
  · cases h
  · rename_i sourceId source hsource
    have hmem := List.mem_of_find?_eq_some hsource
    have hheld := List.find?_some hsource
    -- Some row gives a widget, so something is carried.
    have hcarried : (groupsOf ids source).flatMap Group.taken ≠ [] := by
      obtain ⟨row, hrow, hne⟩ := List.any_eq_true.mp hheld
      have htaken : taken ids row ≠ [] := by simpa using hne
      obtain ⟨id, hid⟩ := List.exists_mem_of_ne_nil _ htaken
      have hgroup : (⟨row, taken ids row, remaining ids row⟩ : Group) ∈ groupsOf ids source :=
        List.mem_filterMap.mpr ⟨row, hrow, if_neg htaken⟩
      exact List.ne_nil_of_mem (List.mem_flatMap.mpr ⟨_, hgroup, hid⟩)
    simp only at h
    split at h
    · cases h
    · rename_i within hwithin
      split at h
      · cases h
      · rename_i hnot
        have hlayout : placement.layout ∉ within := by simpa using hnot
        split at h
        · cases h
        · rename_i base hbase
          split at h
          · cases h
            exact ⟨sourceId, source, within, base, _, hmem, hwithin, hlayout, hbase, rfl, landed_opened _⟩
          · split at h
            · cases h
            · rename_i destination hdestination
              cases h
              exact ⟨sourceId, source, within, base, _, hmem, hwithin, hlayout, hbase, rfl,
                landed_joined hdestination hcarried _ _⟩

/-- The rows of a plan hold widgets that exist, so they are put back as planned. -/
theorem withRows_eq {layout : String} {old rows : List WidgetRow} (hfound : Dict.get layouts layout = some old)
    (hids : ∀ row ∈ rows, ∀ id ∈ row.widgets, id ∈ Dict.keys store.widgets) :
    withRows store layouts (layout, rows) = Dict.set layouts layout rows := by
  unfold withRows
  rw [hfound]
  simp only
  congr 1
  conv_rhs => rw [← List.map_id rows]
  refine List.map_congr_left fun row hrow => ?_
  have hfilter : row.widgets.filter (fun id => (Dict.get store.widgets id).isSome) = row.widgets := by
    rw [List.filter_eq_self]
    intro id hid
    cases hget : Dict.get store.widgets id with
    | none => exact absurd (hids row hrow id hid) (Dict.get_eq_none_iff.mp hget)
    | some widget => rfl
  rw [hfilter]
  rfl

theorem rowsOf_eq {layout : String} {rows : List WidgetRow} (h : Dict.get store.layouts layout = some rows) :
    store.rowsOf layout = rows := by
  unfold Store.rowsOf
  rw [h]
  rfl

theorem mem_slots_of_get {layout : String} {rows : List WidgetRow} (h : Dict.get layouts layout = some rows)
    {id : String} (hid : id ∈ rows.flatMap WidgetRow.widgets) : id ∈ slots layouts := by
  obtain ⟨row, hrow, hid⟩ := List.mem_flatMap.mp hid
  exact mem_slots.mpr ⟨_, Dict.mem_of_get h, row, hrow, hid⟩

/-- **Where the widgets are after a move**, and how many ids of rows there are. -/
structure Moved (before after : Store γ) (source target : String) (carried : List String)
    (new : List String) : Prop where
  keys : Dict.keys after.layouts = Dict.keys before.layouts
  slots : (slots after.layouts : Multiset String) = (slots before.layouts : Multiset String)
  rowIds : (rowIds after.layouts : Multiset String) ≤ (rowIds before.layouts : Multiset String) + (new : Multiset String)
  inside : ∀ layout id, id ∈ (after.rowsOf layout).flatMap WidgetRow.widgets →
    id ∈ (before.rowsOf layout).flatMap WidgetRow.widgets ∨ (layout = target ∧ id ∈ carried)
  empty : ∀ layout row, row ∈ after.rowsOf layout → row.widgets = [] → row ∈ before.rowsOf layout

theorem mem_kept_slots {rows : List WidgetRow} {id : String}
    (h : id ∈ (keptRows held rows).flatMap WidgetRow.widgets) : id ∈ rows.flatMap WidgetRow.widgets := by
  have hle : ((keptRows held rows).flatMap WidgetRow.widgets : Multiset String) ≤
      (rows.flatMap WidgetRow.widgets : List String) := by
    rw [← kept_slots held rows]
    exact Multiset.le_add_right _ _
  exact Multiset.mem_of_le hle h

theorem Landed.mem_slots {base target : List WidgetRow} {carried : List String} {ids : Multiset String}
    (h : Landed base target carried ids) {id : String} (hid : id ∈ target.flatMap WidgetRow.widgets) :
    id ∈ base.flatMap WidgetRow.widgets ∨ id ∈ carried := by
  have hmem : id ∈ (target.flatMap WidgetRow.widgets : Multiset String) := hid
  rw [h.slots, Multiset.mem_add] at hmem
  exact hmem

theorem moved_layouts {ids : List String} {placement : WidgetPlacement} {sourceId : String}
    {source base target : List WidgetRow} (widgets : Dict String (Widget γ)) (hwf : Wf store)
    (hsource : Dict.get store.layouts sourceId = some source)
    (hbase : (if placement.layout = sourceId then some (keptRows ids source)
      else Dict.get store.layouts placement.layout) = some base)
    (hlanded : Landed base target ((groupsOf ids source).flatMap Group.taken)
      (openedIds env (groupsOf ids source))) : Moved store
      ⟨(planned sourceId (keptRows ids source) placement.layout target).foldl (withRows store) store.layouts, widgets⟩
      sourceId placement.layout ((groupsOf ids source).flatMap Group.taken)
      ((List.range' 0 (groupsOf ids source).length).map env.v7) := by
  have hwidgets : ∀ {rows : List WidgetRow}, (∀ id ∈ rows.flatMap WidgetRow.widgets, id ∈ slots store.layouts) →
      ∀ row ∈ rows, ∀ id ∈ row.widgets, id ∈ Dict.keys store.widgets :=
    fun hrows row hrow id hid => hwf.slots.mem_iff.mp (hrows id (List.mem_flatMap.mpr ⟨row, hrow, hid⟩))
  have hkeptmem : ∀ id ∈ (keptRows ids source).flatMap WidgetRow.widgets, id ∈ slots store.layouts :=
    fun id hid => mem_slots_of_get hsource (mem_kept_slots hid)
  have hcarriedmem : ∀ id ∈ (groupsOf ids source).flatMap Group.taken, id ∈ slots store.layouts :=
    fun id hid => mem_slots_of_get hsource (mem_carried hid)
  -- In its own layout a drop lands in the rows that are kept.
  have hbase' : Dict.get (Dict.set store.layouts sourceId (keptRows ids source)) placement.layout = some base := by
    rw [Dict.get_set, ← hbase]
    exact if_congr eq_comm rfl rfl
  have hbasemem : ∀ id ∈ base.flatMap WidgetRow.widgets,
      id ∈ (store.rowsOf placement.layout).flatMap WidgetRow.widgets ∧ id ∈ slots store.layouts := by
    intro id hid
    split at hbase
    · rename_i hsame
      cases hbase
      rw [hsame, rowsOf_eq hsource]
      exact ⟨mem_kept_slots hid, hkeptmem id hid⟩
    · rw [rowsOf_eq hbase]
      exact ⟨hid, mem_slots_of_get hbase hid⟩
  have htargetmem : ∀ id ∈ target.flatMap WidgetRow.widgets, id ∈ slots store.layouts := by
    intro id hid
    exact (hlanded.mem_slots hid).elim (fun hid => (hbasemem id hid).2) (hcarriedmem id)
  have hlayouts : (planned sourceId (keptRows ids source) placement.layout target).foldl (withRows store)
      store.layouts = Dict.set (Dict.set store.layouts sourceId (keptRows ids source)) placement.layout target := by
    unfold planned
    split
    · rename_i hsame
      rw [hsame, Dict.set_set, List.foldl_cons, List.foldl_nil, withRows_eq hsource (hwidgets htargetmem)]
    · rw [List.foldl_cons, List.foldl_cons, List.foldl_nil, withRows_eq hsource (hwidgets hkeptmem),
        withRows_eq hbase' (hwidgets htargetmem)]
  rw [hlayouts]
  have hrows : ∀ layout, (⟨Dict.set (Dict.set store.layouts sourceId (keptRows ids source)) placement.layout
      target, widgets⟩ : Store γ).rowsOf layout = if placement.layout = layout then target
        else if sourceId = layout then keptRows ids source else store.rowsOf layout := by
    intro layout
    unfold Store.rowsOf
    simp only [Dict.get_set]
    split
    · rfl
    · split <;> rfl
  refine ⟨(Dict.keys_set hbase' target).trans (Dict.keys_set hsource _), ?_, ?_, ?_, ?_⟩
  · have hfirst := total_set WidgetRow.widgets hsource (keptRows ids source)
    have hsecond := total_set WidgetRow.widgets hbase' target
    unfold slots
    refine add_right_cancel (b := (base.flatMap WidgetRow.widgets : Multiset String) +
      ((keptRows ids source).flatMap WidgetRow.widgets : List String)) ?_
    calc (total WidgetRow.widgets (Dict.set (Dict.set store.layouts sourceId (keptRows ids source))
            placement.layout target) : Multiset String) + ((base.flatMap WidgetRow.widgets : List String) +
          ((keptRows ids source).flatMap WidgetRow.widgets : List String))
        = (total WidgetRow.widgets (Dict.set store.layouts sourceId (keptRows ids source)) : Multiset String) +
          (((keptRows ids source).flatMap WidgetRow.widgets : List String) +
            ((groupsOf ids source).flatMap Group.taken : List String)) +
              (base.flatMap WidgetRow.widgets : List String) := by
          rw [← add_assoc, hsecond, hlanded.slots]
          abel
      _ = (total WidgetRow.widgets store.layouts : Multiset String) +
          ((keptRows ids source).flatMap WidgetRow.widgets : List String) +
            (base.flatMap WidgetRow.widgets : List String) := by
          rw [kept_slots, hfirst]
      _ = _ := by abel
  · have hfirst := total_set (fun row => [row.id]) hsource (keptRows ids source)
    have hsecond := total_set (fun row => [row.id]) hbase' target
    unfold rowIds
    refine le_of_add_le_add_right (a := (base.flatMap (fun row => [row.id]) : Multiset String) +
      (source.flatMap (fun row => [row.id]) : List String)) ?_
    calc (total (fun row => [row.id]) (Dict.set (Dict.set store.layouts sourceId (keptRows ids source))
            placement.layout target) : Multiset String) +
          ((base.flatMap (fun row => [row.id]) : List String) + (source.flatMap (fun row => [row.id]) : List String))
        = (total (fun row => [row.id]) (Dict.set store.layouts sourceId (keptRows ids source)) : Multiset String) +
          (target.flatMap (fun row => [row.id]) : List String) +
            (source.flatMap (fun row => [row.id]) : List String) := by
          rw [← add_assoc, hsecond]
      _ = (total (fun row => [row.id]) store.layouts : Multiset String) +
          ((keptRows ids source).flatMap (fun row => [row.id]) : List String) +
            (target.flatMap (fun row => [row.id]) : List String) := by
          rw [add_right_comm, hfirst]
      _ ≤ (total (fun row => [row.id]) store.layouts : Multiset String) +
          ((keptRows ids source).flatMap (fun row => [row.id]) : List String) +
            ((base.flatMap (fun row => [row.id]) : List String) + openedIds env (groupsOf ids source)) :=
          add_le_add_right hlanded.rows _
      _ = (total (fun row => [row.id]) store.layouts : Multiset String) +
          (((List.range' 0 (groupsOf ids source).length).map env.v7 : List String) : Multiset String) +
            ((base.flatMap (fun row => [row.id]) : List String) +
              (((keptRows ids source).flatMap (fun row => [row.id]) : List String) +
                (consumedIds (groupsOf ids source) : Multiset String))) := by
          unfold openedIds
          abel
      _ ≤ _ := add_le_add_right (add_le_add_right (kept_ids ids source) _) _
  · intro layout id hid
    rw [hrows] at hid
    split at hid
    · rename_i heq
      rw [← heq]
      exact (hlanded.mem_slots hid).imp (fun hold => (hbasemem id hold).1) fun hcarried => ⟨rfl, hcarried⟩
    · split at hid
      · rename_i heq
        exact .inl (by rw [← heq, rowsOf_eq hsource]; exact mem_kept_slots hid)
      · exact .inl hid
  · intro layout row hrow hempty
    rw [hrows] at hrow
    split at hrow
    · rename_i heq
      have hrow := hlanded.empty row hrow hempty
      split at hbase
      · cases hbase
        exact absurd hempty (mem_keptRows hrow).1
      · rw [← heq, rowsOf_eq hbase]
        exact hrow
    · split at hrow
      · exact absurd hempty (mem_keptRows hrow).1
      · exact hrow

/-- **A move** leaves a well-formed workspace with the same widgets. -/
theorem move_spec (hwf : Wf store) (hfresh : env.Fresh store) (ids : List String) (placement : WidgetPlacement) :
    Rearranged store (moveWidgets env store ids placement) [] [] := by
  unfold moveWidgets
  split
  · exact Rearranged.refl hwf
  · rename_i plan hplan
    split
    · exact Rearranged.refl hwf
    · obtain ⟨sourceId, source, within, base, target, hsource, hwithin, hlayout, hbase, hlayouts, hlanded⟩ :=
        planWidgetsMove_cases hplan
      rw [hlayouts]
      have hmoved := moved_layouts (withWidths store.widgets plan.widths) hwf
        (Dict.get_of_mem hwf.layouts hsource) hbase hlanded
      have hget : ∀ id, Dict.get (withWidths store.widgets plan.widths) id =
          (Dict.get store.widgets id).map (resized plan.widths id) := get_mapped (resized plan.widths) store.widgets
      have hkeys : Dict.keys (withWidths store.widgets plan.widths) = Dict.keys store.widgets :=
        keys_mapped (resized plan.widths) store.widgets
      have hpageIds : pageIds (withWidths store.widgets plan.widths) = pageIds store.widgets :=
        pageIds_mapped _ (pagesOf_resized plan.widths) _
      obtain ⟨rank, hrank⟩ := hwf.depth
      refine ⟨⟨?_, ?_, ?_, ?_, ?_, ?_⟩, ?_, ?_, ?_⟩
      · rw [hmoved.keys]
        exact hwf.layouts
      · rw [hkeys]
        exact hwf.widgets
      · refine nodup_of_le_fresh hmoved.rowIds hwf.rows ?_ ?_
        · exact List.Nodup.map hfresh.injective List.nodup_range'
        · intro id hid
          obtain ⟨n, -, rfl⟩ := List.mem_map.mp hid
          exact hfresh.rows n
      · rw [hkeys]
        exact (Multiset.coe_eq_coe.mp hmoved.slots).trans hwf.slots
      · rw [hpageIds, hmoved.keys]
        exact hwf.pages
      · -- Only the carried widgets' pages have another layout around them.
        have hnot : ∀ page, page ∈ store.pagesWithin ((groupsOf ids source).flatMap Group.taken) →
            ¬ Relation.ReflTransGen (Closure.Step store.inner) page placement.layout := fun page hpage hreach =>
          hlayout ((mem_layoutsWithin hwithin placement.layout).mpr ⟨page, hpage, hreach⟩)
        refine Closure.exists_rank_of_redirect hrank (fun layout page hpage => ?_) hnot
        obtain ⟨id, hid, other, hother, hpage⟩ := mem_pagesWithin.mp hpage
        obtain ⟨widget, hwidget, rfl⟩ := Option.map_eq_some_iff.mp ((hget id).symm.trans hother)
        rw [pagesOf_resized] at hpage
        rcases hmoved.inside layout id hid with hold | ⟨heq, hcarried⟩
        · exact .inl (mem_pagesWithin.mpr ⟨id, hold, widget, hwidget, hpage⟩)
        · exact .inr ⟨heq, mem_pagesWithin.mpr ⟨id, hcarried, widget, hwidget, hpage⟩⟩
      · rw [List.append_nil, List.append_nil]
        exact Multiset.coe_eq_coe.mp hmoved.slots
      · intro id widget hwidget _
        exact ⟨resized plan.widths id widget, by rw [hget, hwidget]; rfl, rfl⟩
      · exact fun layout row hrow hempty => ⟨layout, hmoved.empty layout row hrow hempty⟩

/-! ## 5. Groups -/

section Group

variable {ids : List String} {holder : String} {height : Option ℚ}

theorem grouped_slots (rows : List WidgetRow) : ∀ first : Bool,
    ((groupedRows ids holder height first rows).flatMap WidgetRow.widgets : Multiset String) +
        ((groupsOf ids rows).flatMap Group.taken : List String) =
      (rows.flatMap WidgetRow.widgets : List String) +
        (if first = true ∧ groupsOf ids rows ≠ [] then {holder} else 0) := by
  induction rows with
  | nil =>
    intro first
    simp [groupedRows, groupsOf]
  | cons row rows ih =>
    intro first
    rw [groupedRows, groupsOf_cons, coe_flatMap_cons]
    by_cases htaken : taken ids row = []
    · rw [if_pos htaken, if_pos htaken, coe_flatMap_cons, add_assoc, ih first, add_assoc]
    · have hrow := coe_remaining_taken ids row
      have hrest := ih false
      simp only [Bool.false_eq_true, false_and, if_false, add_zero] at hrest
      rw [if_neg htaken, if_neg htaken, coe_flatMap_cons, ← hrow, ← hrest]
      cases first with
      | true =>
        rw [if_pos rfl, if_pos ⟨rfl, List.cons_ne_nil _ _⟩, coe_flatMap_cons]
        simp only
        rw [coe_splice, Multiset.coe_singleton]
        abel
      | false =>
        simp only [Bool.false_eq_true, false_and, if_false, add_zero]
        by_cases hremaining : remaining ids row = []
        · rw [if_pos hremaining, hremaining, Multiset.coe_nil]
          abel
        · rw [if_neg hremaining, coe_flatMap_cons]
          abel

theorem grouped_ids (rows : List WidgetRow) : ∀ first : Bool,
    ((groupedRows ids holder height first rows).flatMap (fun row => [row.id]) : Multiset String) ≤
      (rows.flatMap (fun row => [row.id]) : List String) := by
  induction rows with
  | nil => exact fun _ => le_refl _
  | cons row rows ih =>
    intro first
    rw [groupedRows, coe_flatMap_cons]
    split
    · rw [coe_flatMap_cons]
      exact add_le_add_right (ih first) _
    · split
      · rw [coe_flatMap_cons]
        exact add_le_add_right (ih false) _
      · split
        · exact (ih false).trans (Multiset.le_add_left _ _)
        · rw [coe_flatMap_cons]
          exact add_le_add_right (ih false) _

theorem grouped_empty (rows : List WidgetRow) : ∀ first : Bool,
    ∀ row ∈ groupedRows ids holder height first rows, row.widgets = [] → row ∈ rows := by
  induction rows with
  | nil => exact fun _ _ hrow _ => hrow
  | cons before rows ih =>
    intro first row hrow hempty
    rw [groupedRows] at hrow
    split at hrow
    · rcases List.mem_cons.mp hrow with rfl | hrow
      · exact List.mem_cons_self
      · exact List.mem_cons_of_mem _ (ih first row hrow hempty)
    · split at hrow
      · rcases List.mem_cons.mp hrow with rfl | hrow
        · have hholder : holder ∈ splice (remaining ids before)
              (before.widgets.findIdx fun id => ids.contains id) [holder] := mem_splice.mpr (.inr List.mem_cons_self)
          rw [show splice (remaining ids before) (before.widgets.findIdx fun id => ids.contains id) [holder] = []
            from hempty] at hholder
          cases hholder
        · exact List.mem_cons_of_mem _ (ih false row hrow hempty)
      · split at hrow
        · exact List.mem_cons_of_mem _ (ih false row hrow hempty)
        · rename_i hremaining
          rcases List.mem_cons.mp hrow with rfl | hrow
          · exact absurd hempty hremaining
          · exact List.mem_cons_of_mem _ (ih false row hrow hempty)

theorem drafts_slots (split : GroupSplit) (groups : List Group) :
    (drafts store split groups).flatMap (fun draft => draft.2.flatMap Prod.snd) = groups.flatMap Group.taken := by
  cases split with
  | widget =>
    unfold drafts
    rw [List.flatMap_assoc]
    refine List.flatMap_congr fun group _ => ?_
    rw [List.flatMap_map]
    simp
  | row =>
    unfold drafts
    rw [List.flatMap_map]
    simp
  | none =>
    unfold drafts
    simp [List.flatMap_map]

theorem drafts_ne_nil (split : GroupSplit) {groups : List Group} (hgroups : ∀ group ∈ groups, group.taken ≠ []) :
    ∀ draft ∈ drafts store split groups, ∀ row ∈ draft.2, row.2 ≠ [] := by
  intro draft hdraft row hrow
  cases split with
  | widget =>
    obtain ⟨group, -, hdraft⟩ := List.mem_flatMap.mp hdraft
    obtain ⟨id, -, rfl⟩ := List.mem_map.mp hdraft
    rw [List.mem_singleton.mp hrow]
    exact List.cons_ne_nil _ _
  | row =>
    obtain ⟨group, hgroup, rfl⟩ := List.mem_map.mp hdraft
    rw [List.mem_singleton.mp hrow]
    exact hgroups group hgroup
  | none =>
    rw [List.mem_singleton.mp hdraft] at hrow
    obtain ⟨group, hgroup, rfl⟩ := List.mem_map.mp hrow
    exact hgroups group hgroup

/-- What `f` gives of the rows of the pages. -/
theorem draftedPages_flatMap {α : Type} (f : WidgetRow → List α) (drafts : List Draft) :
    (draftedPages env drafts).flatMap (fun page => page.2.flatMap f) =
      drafts.zipIdx.flatMap fun draft => draft.1.2.zipIdx.flatMap fun row => f (pageRow env draft.2 row.2 row.1) := by
  unfold draftedPages
  rw [List.flatMap_map]
  refine List.flatMap_congr fun draft _ => ?_
  rw [List.flatMap_map]

theorem zipIdx_flatMap {α β : Type} (f : α → List β) (list : List α) : ∀ k : Nat,
    (list.zipIdx k).flatMap (fun entry => f entry.1) = list.flatMap f := by
  induction list with
  | nil => exact fun _ => rfl
  | cons first list ih =>
    intro k
    rw [List.zipIdx_cons, List.flatMap_cons, List.flatMap_cons, ih]

theorem draftedPages_slots (drafts : List Draft) :
    (draftedPages env drafts).flatMap (fun page => page.2.flatMap WidgetRow.widgets) =
      drafts.flatMap fun draft => draft.2.flatMap Prod.snd := by
  rw [draftedPages_flatMap]
  have hrow : ∀ draft : Draft × Nat, draft.1.2.zipIdx.flatMap (fun row =>
      (pageRow env draft.2 row.2 row.1).widgets) = draft.1.2.flatMap Prod.snd :=
    fun draft => zipIdx_flatMap Prod.snd draft.1.2 0
  simp only [hrow]
  exact zipIdx_flatMap (fun draft : Draft => draft.2.flatMap Prod.snd) drafts 0

theorem nodup_zipIdx_snd {α : Type} (list : List α) (k : Nat) : ((list.zipIdx k).map Prod.snd).Nodup := by
  rw [List.zipIdx_map_snd]
  exact List.nodup_range'

theorem draftedPages_ids (drafts : List Draft) : ∃ pairs : List (Nat × Nat), pairs.Nodup ∧
    (draftedPages env drafts).flatMap (fun page => page.2.flatMap fun row => [row.id]) =
      pairs.map fun pair => env.v7 (2 * Nat.pair pair.1 pair.2 + 2) := by
  refine ⟨drafts.zipIdx.flatMap fun draft => draft.1.2.zipIdx.map fun row => (draft.2, row.2), ?_, ?_⟩
  · rw [List.nodup_flatMap]
    constructor
    · intro draft _
      have hsnd := nodup_zipIdx_snd draft.1.2 0
      have hmap : draft.1.2.zipIdx.map (fun row => (draft.2, row.2)) =
          (draft.1.2.zipIdx.map Prod.snd).map fun j => (draft.2, j) := by
        rw [List.map_map]
        rfl
      rw [hmap]
      exact hsnd.map fun j k h => (Prod.mk.inj h).2
    · have hpairs : drafts.zipIdx.Pairwise fun a b => a.2 ≠ b.2 :=
        List.pairwise_map.mp (nodup_zipIdx_snd drafts 0)
      refine hpairs.imp fun hne => ?_
      rw [Function.onFun, List.disjoint_left]
      intro pair hfirst hsecond
      obtain ⟨_, -, rfl⟩ := List.mem_map.mp hfirst
      obtain ⟨_, -, heq⟩ := List.mem_map.mp hsecond
      exact hne (Prod.mk.inj heq).1.symm
  · rw [draftedPages_flatMap, List.map_flatMap]
    refine List.flatMap_congr fun draft _ => ?_
    rw [List.map_map]
    exact List.map_eq_flatMap.symm

/-- The ids of the pages are new and distinct. -/
theorem draftedPages_pages (drafts : List Draft) : (draftedPages env drafts).map (fun page => page.1.id) =
      (List.range' 0 drafts.length).map fun i => env.v7 (2 * i + 1) := by
  unfold draftedPages
  rw [List.map_map, ← List.zipIdx_map_snd 0 drafts, List.map_map]
  rfl

/-- **What a plan of a group says** of the rows and of the pages that are made. -/
structure Planned (env : Env γ) (store : Store γ) (rows : List WidgetRow) (ids : List String)
    (plan : WidgetGroupPlan γ) : Prop where
  groups : groupsOf ids rows ≠ []
  grouped : ∃ height, plan.rows = groupedRows ids (env.v7 0) height true rows
  holder : plan.holderId = env.v7 0
  pages : (pagesOf plan.holder).map WidgetPage.id = Dict.keys plan.pages
  new : ∃ numbers : List Nat, numbers.Nodup ∧ Dict.keys plan.pages = numbers.map fun i => env.v7 (2 * i + 1)
  slots : total WidgetRow.widgets plan.pages = (groupsOf ids rows).flatMap Group.taken
  rowIds : ∃ pairs : List (Nat × Nat), pairs.Nodup ∧
    total (fun row => [row.id]) plan.pages = pairs.map fun pair => env.v7 (2 * Nat.pair pair.1 pair.2 + 2)
  empty : ∀ entry ∈ plan.pages, ∀ row ∈ entry.2, row.widgets ≠ []

theorem withPages_total (f : WidgetRow → List String) (type : PagesWidgetType)
    (pages : List (WidgetPage × List WidgetRow)) :
    total f ((withPages env type pages).map fun page => (page.1.id, page.2)) =
      pages.flatMap fun page => page.2.flatMap f := by
  unfold total
  rw [List.flatMap_map]
  cases type with
  | section_ =>
    show ([foldedPage env pages]).flatMap (fun page => page.2.flatMap f) = _
    rw [List.flatMap_singleton, foldedPage, List.flatMap_assoc]
  | tabs => rfl
  | carousel => rfl

theorem withPages_keys (type : PagesWidgetType) (drafts : List Draft) : ∃ numbers : List Nat, numbers.Nodup ∧
      (withPages env type (draftedPages env drafts)).map (fun page => page.1.id) =
        numbers.map fun i => env.v7 (2 * i + 1) := by
  have hpages : (draftedPages env drafts).map (fun page => page.1.id) =
      (List.range' 0 drafts.length).map fun i => env.v7 (2 * i + 1) := draftedPages_pages drafts
  cases type with
  | section_ =>
    refine ⟨[0], List.nodup_singleton _, ?_⟩
    show [(foldedPage env (draftedPages env drafts)).1.id] = [env.v7 1]
    cases drafts with
    | nil => rfl
    | cons draft drafts => rfl
  | tabs => exact ⟨_, List.nodup_range', hpages⟩
  | carousel => exact ⟨_, List.nodup_range', hpages⟩

theorem mem_withPages {type : PagesWidgetType} {pages : List (WidgetPage × List WidgetRow)}
    {page : WidgetPage × List WidgetRow} (h : page ∈ withPages env type pages) {row : WidgetRow}
    (hrow : row ∈ page.2) : ∃ other ∈ pages, row ∈ other.2 := by
  cases type with
  | section_ =>
    rw [List.mem_singleton.mp h] at hrow
    exact List.mem_flatMap.mp hrow
  | tabs => exact ⟨page, h, hrow⟩
  | carousel => exact ⟨page, h, hrow⟩

theorem planWidgetsGroup_planned {rows : List WidgetRow} {type : PagesWidgetType} {split : GroupSplit}
    {plan : WidgetGroupPlan γ} (h : planWidgetsGroup env store rows ids type split = some plan) :
    Planned env store rows ids plan := by
  unfold planWidgetsGroup at h
  simp only at h
  split at h
  · cases h
  · rename_i hgroups
    cases h
    have hkeys : Dict.keys ((withPages env type (draftedPages env (drafts store split (groupsOf ids rows)))).map
        fun page => (page.1.id, page.2)) =
        (withPages env type (draftedPages env (drafts store split (groupsOf ids rows)))).map
          fun page => page.1.id := by
      unfold Dict.keys
      rw [List.map_map]
      rfl
    refine ⟨hgroups, ⟨_, rfl⟩, rfl, ?_, ?_, ?_, ?_, ?_⟩
    · rw [hkeys]
      show (List.map Prod.fst _).map WidgetPage.id = _
      rw [List.map_map]
      rfl
    · rw [hkeys]
      exact withPages_keys type _
    · rw [withPages_total, draftedPages_slots, drafts_slots]
    · rw [withPages_total]
      exact draftedPages_ids _
    · intro entry hentry row hrow
      obtain ⟨page, hpage, rfl⟩ := List.mem_map.mp hentry
      obtain ⟨other, hother, hrow⟩ := mem_withPages hpage hrow
      obtain ⟨⟨draft, i⟩, hdraft, rfl⟩ := List.mem_map.mp hother
      obtain ⟨⟨source, j⟩, hsource, rfl⟩ := List.mem_map.mp hrow
      exact drafts_ne_nil split (fun group hgroup => (mem_groupsOf hgroup).2.2.2) draft
        (List.fst_mem_of_mem_zipIdx hdraft) source (List.fst_mem_of_mem_zipIdx hsource)

theorem firstPlan_eq_some {α : Type} {plan : List WidgetRow → Option α} {found : α} {layout : String}
    {rows : List WidgetRow} (layouts : List (String × List WidgetRow))
    (h : firstPlan plan layouts = some (layout, rows, found)) :
    (layout, rows) ∈ layouts ∧ plan rows = some found := by
  induction layouts with
  | nil => cases h
  | cons entry layouts ih =>
    obtain ⟨first, firstRows⟩ := entry
    rw [firstPlan] at h
    split at h
    · rename_i other hother
      cases h
      exact ⟨List.mem_cons_self, hother⟩
    · exact ⟨List.mem_cons_of_mem _ (ih h).1, (ih h).2⟩

theorem get_append {α : Type} (first second : Dict String α) (key : String) :
    Dict.get (first ++ second) key = (Dict.get first key).or (Dict.get second key) := by
  induction first with
  | nil => rfl
  | cons entry first ih =>
    rw [List.cons_append, Dict.get_cons, Dict.get_cons]
    by_cases hkey : entry.1 = key
    · rw [if_pos hkey, if_pos hkey]
      rfl
    · rw [if_neg hkey, if_neg hkey, ih]

/-- The widget as a group leaves it. -/
def reframed (frameless : Bool) (plan : WidgetGroupPlan γ) (id : String) (widget : Widget γ) : Widget γ :=
  { resized plan.widths id widget with
    frameless := if plan.taken.contains id then frameless || widget.frameless else widget.frameless }

theorem regrouped_eq (store : Store γ) (frameless : Bool) (plan : WidgetGroupPlan γ) :
    regrouped store frameless plan =
      (store.widgets.map fun entry => (entry.1, reframed frameless plan entry.1 entry.2)) ++
        [(plan.holderId, plan.holder)] := by
  unfold regrouped withWidths
  rw [List.map_map]
  rfl

section Grouping

variable {rows : List WidgetRow} {plan : WidgetGroupPlan γ} {layout : String} (hwf : Wf store)
  (hfresh : env.Fresh store) (hplan : Planned env store rows ids plan)
  (hlayout : Dict.get store.layouts layout = some rows)

include hfresh hplan in
theorem new_not_mem_keys {page : String} (h : page ∈ Dict.keys plan.pages) : page ∉ Dict.keys store.layouts := by
  obtain ⟨numbers, -, hkeys⟩ := hplan.new
  rw [hkeys] at h
  obtain ⟨i, -, rfl⟩ := List.mem_map.mp h
  exact hfresh.layouts _

include hplan in
theorem planned_slots :
    (plan.rows.flatMap WidgetRow.widgets : Multiset String) + ((groupsOf ids rows).flatMap Group.taken : List String) =
      (rows.flatMap WidgetRow.widgets : List String) + {env.v7 0} := by
  obtain ⟨height, hrows⟩ := hplan.grouped
  rw [hrows]
  refine (grouped_slots rows true).trans ?_
  rw [if_pos ⟨rfl, hplan.groups⟩]

include hplan hlayout in
theorem group_slots : (slots (Dict.set store.layouts layout plan.rows ++ plan.pages) : Multiset String) =
      (slots store.layouts : Multiset String) + {env.v7 0} := by
  have hset := total_set WidgetRow.widgets hlayout plan.rows
  have hsplit : (slots (Dict.set store.layouts layout plan.rows ++ plan.pages) : Multiset String) =
      (total WidgetRow.widgets (Dict.set store.layouts layout plan.rows) : Multiset String) +
        ((groupsOf ids rows).flatMap Group.taken : List String) := by
    rw [← hplan.slots]
    unfold slots total
    rw [coe_flatMap_append]
  rw [hsplit]
  refine add_right_cancel (b := (rows.flatMap WidgetRow.widgets : Multiset String)) ?_
  calc (total WidgetRow.widgets (Dict.set store.layouts layout plan.rows) : Multiset String) +
        ((groupsOf ids rows).flatMap Group.taken : List String) + (rows.flatMap WidgetRow.widgets : List String)
      = (total WidgetRow.widgets store.layouts : Multiset String) +
          ((plan.rows.flatMap WidgetRow.widgets : List String) +
            ((groupsOf ids rows).flatMap Group.taken : List String)) := by
        rw [add_right_comm, hset, add_assoc]
    _ = (slots store.layouts : Multiset String) + {env.v7 0} + (rows.flatMap WidgetRow.widgets : List String) := by
        rw [planned_slots hplan]
        unfold slots
        abel

include hplan hlayout in
theorem group_rowIds : ∃ pairs : List (Nat × Nat), pairs.Nodup ∧
    (rowIds (Dict.set store.layouts layout plan.rows ++ plan.pages) : Multiset String) ≤
      (rowIds store.layouts : Multiset String) +
        ((pairs.map fun pair => env.v7 (2 * Nat.pair pair.1 pair.2 + 2) : List String) : Multiset String) := by
  obtain ⟨height, hrows⟩ := hplan.grouped
  obtain ⟨pairs, hnodup, hpairs⟩ := hplan.rowIds
  refine ⟨pairs, hnodup, ?_⟩
  have hset := total_set (fun row => [row.id]) hlayout plan.rows
  have hgrouped : (plan.rows.flatMap (fun row => [row.id]) : Multiset String) ≤
      (rows.flatMap (fun row => [row.id]) : List String) := by
    rw [hrows]
    exact grouped_ids rows true
  have hfirst : (total (fun row => [row.id]) (Dict.set store.layouts layout plan.rows) : Multiset String) ≤
      (rowIds store.layouts : Multiset String) := by
    refine le_of_add_le_add_right (a := (rows.flatMap (fun row => [row.id]) : Multiset String)) ?_
    rw [hset]
    exact add_le_add_right hgrouped _
  have hsplit : (rowIds (Dict.set store.layouts layout plan.rows ++ plan.pages) : Multiset String) =
      (total (fun row => [row.id]) (Dict.set store.layouts layout plan.rows) : Multiset String) +
        ((pairs.map fun pair => env.v7 (2 * Nat.pair pair.1 pair.2 + 2) : List String) : Multiset String) := by
    rw [← hpairs]
    unfold rowIds total
    rw [coe_flatMap_append]
  rw [hsplit]
  exact add_le_add_left hfirst _

include hwf hfresh hplan hlayout in
theorem group_inside {widgets : Dict String (Widget γ)} {other id : String}
    (hid : id ∈ ((⟨Dict.set store.layouts layout plan.rows ++ plan.pages, widgets⟩ : Store γ).rowsOf other).flatMap
      WidgetRow.widgets) : (other = layout ∧ id = env.v7 0) ∨
      (other ∈ Dict.keys plan.pages ∧ id ∈ rows.flatMap WidgetRow.widgets) ∨
      (other ∉ Dict.keys plan.pages ∧ id ∈ (store.rowsOf other).flatMap WidgetRow.widgets) := by
  have hgrouped : ∀ {id}, id ∈ plan.rows.flatMap WidgetRow.widgets →
      id ∈ rows.flatMap WidgetRow.widgets ∨ id = env.v7 0 := by
    intro id hmem
    have hleft : id ∈ (plan.rows.flatMap WidgetRow.widgets : Multiset String) +
        ((groupsOf ids rows).flatMap Group.taken : List String) := Multiset.mem_add.mpr (.inl hmem)
    rw [planned_slots hplan, Multiset.mem_add, Multiset.mem_singleton] at hleft
    exact hleft
  have hold : layout ∉ Dict.keys plan.pages := fun hmem =>
    new_not_mem_keys hfresh hplan hmem (Dict.mem_keys_of_mem (Dict.mem_of_get hlayout))
  unfold Store.rowsOf at hid
  simp only [get_append, Dict.get_set] at hid
  by_cases hsame : layout = other
  · rw [if_pos hsame, Option.some_or, Option.getD_some] at hid
    subst hsame
    rcases hgrouped hid with hrow | hholder
    · exact .inr (.inr ⟨hold, by rw [rowsOf_eq hlayout]; exact hrow⟩)
    · exact .inl ⟨rfl, hholder⟩
  · rw [if_neg hsame] at hid
    cases hfound : Dict.get store.layouts other with
    | some others =>
      rw [hfound, Option.some_or, Option.getD_some] at hid
      refine .inr (.inr ⟨fun hmem => ?_, by rw [rowsOf_eq hfound]; exact hid⟩)
      exact new_not_mem_keys hfresh hplan hmem (Dict.mem_keys_of_mem (Dict.mem_of_get hfound))
    | none =>
      rw [hfound, Option.none_or] at hid
      cases hpage : Dict.get plan.pages other with
      | none =>
        rw [hpage] at hid
        cases hid
      | some others =>
        rw [hpage, Option.getD_some] at hid
        have hmem := Dict.mem_of_get hpage
        refine .inr (.inl ⟨Dict.mem_keys_of_mem hmem, ?_⟩)
        obtain ⟨row, hrow, hid⟩ := List.mem_flatMap.mp hid
        have htotal : id ∈ total WidgetRow.widgets plan.pages := mem_slots.mpr ⟨_, hmem, row, hrow, hid⟩
        rw [hplan.slots] at htotal
        exact mem_carried htotal

theorem get_regrouped (frameless : Bool) {id : String} {widget : Widget γ}
    (h : Dict.get store.widgets id = some widget) :
    Dict.get (regrouped store frameless plan) id = some (reframed frameless plan id widget) := by
  rw [regrouped_eq, get_append, get_mapped (reframed frameless plan), h]
  rfl

include hfresh hplan in
theorem get_regrouped_holder (frameless : Bool) :
    Dict.get (regrouped store frameless plan) (env.v7 0) = some plan.holder := by
  have hnone : Dict.get store.widgets (env.v7 0) = none := Dict.get_eq_none_iff.mpr (hfresh.widgets 0)
  rw [regrouped_eq, get_append, get_mapped (reframed frameless plan), hnone, hplan.holder, Option.map_none,
    Option.none_or, Dict.get_cons, if_pos rfl]

include hwf hfresh hplan hlayout in
/-- No layout is inside itself after a group: the new ones are half a step below the holder's. -/
theorem group_depth (frameless : Bool) : ∃ rank : String → Nat, ∀ other page,
    page ∈ (⟨Dict.set store.layouts layout plan.rows ++ plan.pages, regrouped store frameless plan⟩ :
      Store γ).inner other → rank other < rank page := by
  obtain ⟨rank, hrank⟩ := hwf.depth
  refine ⟨fun other => if other ∈ Dict.keys plan.pages then 2 * rank layout + 1 else 2 * rank other,
    fun other page hinner => ?_⟩
  obtain ⟨id, hid, widget, hwidget, hpage⟩ := mem_pagesWithin.mp hinner
  have hlayoutOld : layout ∉ Dict.keys plan.pages := fun hnew =>
    new_not_mem_keys hfresh hplan hnew (Dict.mem_keys_of_mem (Dict.mem_of_get hlayout))
  -- A widget that was there has the pages it had.
  have hold : ∀ above, id ∈ (store.rowsOf above).flatMap WidgetRow.widgets →
      rank above < rank page ∧ page ∉ Dict.keys plan.pages := by
    intro above habove
    have hslot : id ∈ Dict.keys store.widgets := by
      cases hfound : Dict.get store.layouts above with
      | none => simp [Store.rowsOf, hfound] at habove
      | some others =>
        rw [rowsOf_eq hfound] at habove
        exact hwf.slots.mem_iff.mp (mem_slots_of_get hfound habove)
    cases hbefore : Dict.get store.widgets id with
    | none => exact absurd hslot (Dict.get_eq_none_iff.mp hbefore)
    | some before =>
      have hsame : Dict.get (regrouped store frameless plan) id = some widget := hwidget
      rw [get_regrouped frameless hbefore, Option.some.injEq] at hsame
      rw [← hsame] at hpage
      have hbefore : page ∈ store.inner above := mem_pagesWithin.mpr ⟨id, habove, before, hbefore, hpage⟩
      exact ⟨hrank _ _ hbefore, fun hnew => new_not_mem_keys hfresh hplan hnew (hwf.mem_keys_of_inner hbefore)⟩
  rcases group_inside hwf hfresh hplan hlayout hid with ⟨rfl, rfl⟩ | ⟨hnew, hrow⟩ | ⟨hnot, hrow⟩
  · -- The holder's own pages.
    have hsame : Dict.get (regrouped store frameless plan) (env.v7 0) = some widget := hwidget
    rw [get_regrouped_holder hfresh hplan, Option.some.injEq] at hsame
    rw [← hsame, hplan.pages] at hpage
    simp only [if_neg hlayoutOld, if_pos hpage]
    omega
  · have hlt := hold layout (by rw [rowsOf_eq hlayout]; exact hrow)
    simp only [if_pos hnew, if_neg hlt.2]
    omega
  · have hlt := hold other hrow
    simp only [if_neg hnot, if_neg hlt.2]
    omega

include hplan hlayout in
theorem group_empty {widgets : Dict String (Widget γ)} {other : String} {row : WidgetRow}
    (hrow : row ∈ (⟨Dict.set store.layouts layout plan.rows ++ plan.pages, widgets⟩ : Store γ).rowsOf other)
    (hempty : row.widgets = []) : ∃ before, row ∈ store.rowsOf before := by
  unfold Store.rowsOf at hrow
  simp only [get_append, Dict.get_set] at hrow
  by_cases hsame : layout = other
  · rw [if_pos hsame, Option.some_or, Option.getD_some] at hrow
    obtain ⟨height, hrows⟩ := hplan.grouped
    rw [hrows] at hrow
    exact ⟨layout, by rw [rowsOf_eq hlayout]; exact grouped_empty rows true row hrow hempty⟩
  · rw [if_neg hsame] at hrow
    cases hfound : Dict.get store.layouts other with
    | some others =>
      rw [hfound, Option.some_or, Option.getD_some] at hrow
      exact ⟨other, by rw [rowsOf_eq hfound]; exact hrow⟩
    | none =>
      rw [hfound, Option.none_or] at hrow
      cases hpage : Dict.get plan.pages other with
      | none =>
        rw [hpage] at hrow
        cases hrow
      | some others =>
        rw [hpage, Option.getD_some] at hrow
        exact absurd hempty (hplan.empty _ (Dict.mem_of_get hpage) row hrow)

end Grouping

/-- **A group** leaves a well-formed workspace with the same widgets and the holder. -/
theorem group_spec (hwf : Wf store) (hfresh : env.Fresh store) (ids : List String) (type : PagesWidgetType)
    (split : GroupSplit) (frameless : Bool) : groupWidgets env store ids type split frameless = store ∨
      Rearranged store (groupWidgets env store ids type split frameless) [env.v7 0] [] := by
  unfold groupWidgets
  split
  · exact .inl rfl
  · split
    · exact .inl rfl
    · rename_i layout rows plan hfirst
      obtain ⟨hmem, hplanned⟩ := firstPlan_eq_some _ hfirst
      have hplan := planWidgetsGroup_planned hplanned
      have hlayout := Dict.get_of_mem hwf.layouts hmem
      have hslots := group_slots hplan hlayout
      rw [← Multiset.coe_singleton, Multiset.coe_add] at hslots
      have hkeys : Dict.keys (regrouped store frameless plan) = Dict.keys store.widgets ++ [env.v7 0] := by
        rw [regrouped_eq, hplan.holder]
        unfold Dict.keys
        rw [List.map_append, List.map_map]
        rfl
      have hlayoutKeys : Dict.keys (Dict.set store.layouts layout plan.rows ++ plan.pages) =
          Dict.keys store.layouts ++ Dict.keys plan.pages := by
        rw [← Dict.keys_set hlayout plan.rows]
        exact List.map_append
      have hpages : pageIds (regrouped store frameless plan) = pageIds store.widgets ++ Dict.keys plan.pages := by
        rw [regrouped_eq, ← pageIds_mapped (reframed frameless plan) (fun _ _ => rfl) store.widgets, ← hplan.pages]
        unfold pageIds
        rw [List.flatMap_append, List.flatMap_singleton]
      refine .inr ⟨⟨?_, ?_, ?_, ?_, ?_, group_depth hwf hfresh hplan hlayout frameless⟩, ?_,
        fun id widget hwidget _ => ⟨_, get_regrouped frameless hwidget, rfl⟩,
        fun other row hrow hempty => group_empty hplan hlayout hrow hempty⟩
      · obtain ⟨numbers, hnumbers, hnew⟩ := hplan.new
        rw [hlayoutKeys]
        refine List.Nodup.append hwf.layouts ?_ fun page hold hpage => new_not_mem_keys hfresh hplan hpage hold
        rw [hnew]
        refine hnumbers.map fun i j h => ?_
        have := hfresh.injective h
        omega
      · rw [hkeys]
        refine List.Nodup.append hwf.widgets (List.nodup_singleton _) fun id hold hnew => ?_
        rw [List.mem_singleton.mp hnew] at hold
        exact hfresh.widgets 0 hold
      · obtain ⟨pairs, hpairs, hle⟩ := group_rowIds hplan hlayout
        refine nodup_of_le_fresh hle hwf.rows (hpairs.map fun first second h => ?_) fun id hid => ?_
        · have hpair : Nat.pair first.1 first.2 = Nat.pair second.1 second.2 := by
            have := hfresh.injective h
            omega
          exact Prod.ext_iff.mpr (Nat.pair_eq_pair.mp hpair)
        · obtain ⟨pair, -, rfl⟩ := List.mem_map.mp hid
          exact hfresh.rows _
      · rw [hkeys]
        exact (Multiset.coe_eq_coe.mp hslots).trans (hwf.slots.append_right [env.v7 0])
      · rw [hlayoutKeys, hpages, ← List.cons_append]
        exact hwf.pages.append_right _
      · rw [List.append_nil]
        exact Multiset.coe_eq_coe.mp hslots

end Group

/-! ## 6. Ungrouping -/

section Ungroup

variable {id : String} {landing : List WidgetRow}

theorem taken_singleton {row : WidgetRow} (hnodup : row.widgets.Nodup) (hid : id ∈ row.widgets) :
    taken [id] row = [id] := by
  have hfilter : taken [id] row = row.widgets.filter fun other => other == id :=
    List.filter_congr fun other _ => by rw [List.contains_cons, List.contains_nil, Bool.or_false]
  rw [hfilter, List.filter_beq, hnodup.count, if_pos hid]
  rfl

theorem ungrouped_slots (rows : List WidgetRow) (hnodup : (rows.flatMap WidgetRow.widgets).Nodup)
    (hid : ∃ row ∈ rows, id ∈ row.widgets) :
    ((ungroupedRows id landing rows).flatMap WidgetRow.widgets : Multiset String) + {id} =
      (rows.flatMap WidgetRow.widgets : List String) + (landing.flatMap WidgetRow.widgets : List String) := by
  induction rows with
  | nil =>
    obtain ⟨row, hrow, -⟩ := hid
    cases hrow
  | cons row rows ih =>
    rw [List.flatMap_cons, List.nodup_append] at hnodup
    rw [ungroupedRows, coe_flatMap_cons]
    by_cases hrow : id ∈ row.widgets
    · have hsplit := coe_remaining_taken [id] row
      rw [taken_singleton hnodup.1 hrow, Multiset.coe_singleton] at hsplit
      rw [if_pos (by simpa using hrow), ← hsplit]
      split
      · rename_i hempty
        rw [hempty, Multiset.coe_nil, coe_flatMap_append]
        abel
      · rw [List.cons_append, coe_flatMap_cons, coe_flatMap_append]
        abel
    · rw [if_neg (by simpa using hrow), coe_flatMap_cons]
      have hrest : ∃ other ∈ rows, id ∈ other.widgets := by
        obtain ⟨other, hother, hmem⟩ := hid
        rcases List.mem_cons.mp hother with rfl | hother
        · exact absurd hmem hrow
        · exact ⟨other, hother, hmem⟩
      rw [add_assoc, ih hnodup.2.1 hrest, add_assoc]

theorem ungrouped_ids (rows : List WidgetRow) :
    ((ungroupedRows id landing rows).flatMap (fun row => [row.id]) : Multiset String) ≤
      (rows.flatMap (fun row => [row.id]) : List String) + (landing.flatMap (fun row => [row.id]) : List String) := by
  induction rows with
  | nil => exact Multiset.zero_le _
  | cons row rows ih =>
    rw [ungroupedRows, coe_flatMap_cons]
    split
    · split
      · rw [coe_flatMap_append, add_assoc, add_comm (rows.flatMap (fun row => [row.id]) : Multiset String)]
        exact Multiset.le_add_left _ _
      · rw [List.cons_append, coe_flatMap_cons, coe_flatMap_append,
          add_comm (landing.flatMap (fun row => [row.id]) : Multiset String), ← add_assoc]
    · rw [coe_flatMap_cons, add_assoc]
      exact add_le_add_right ih _

theorem ungrouped_empty (rows : List WidgetRow) :
    ∀ row ∈ ungroupedRows id landing rows, row.widgets = [] → row ∈ rows ∨ row ∈ landing := by
  induction rows with
  | nil => exact fun _ hrow _ => .inl hrow
  | cons first rows ih =>
    intro row hrow hempty
    rw [ungroupedRows] at hrow
    split at hrow
    · split at hrow
      · rcases List.mem_append.mp hrow with hrow | hrow
        · exact .inr hrow
        · exact .inl (List.mem_cons_of_mem _ hrow)
      · rename_i hne
        rw [List.cons_append] at hrow
        rcases List.mem_cons.mp hrow with rfl | hrow
        · exact absurd hempty hne
        · rcases List.mem_append.mp hrow with hrow | hrow
          · exact .inr hrow
          · exact .inl (List.mem_cons_of_mem _ hrow)
    · rcases List.mem_cons.mp hrow with rfl | hrow
      · exact .inl List.mem_cons_self
      · exact (ih row hrow hempty).imp_left (List.mem_cons_of_mem _)

/-- The entries of a dictionary are those under some of its keys and the others. -/
theorem perm_filter_keys {α : Type} (default : α) {dict : Dict String α} (hnodup : (Dict.keys dict).Nodup)
    {keys : List String} (hkeys : keys.Nodup) (hmem : ∀ key ∈ keys, key ∈ Dict.keys dict) :
    dict.Perm ((keys.map fun key => (key, (Dict.get dict key).getD default)) ++
      dict.filter fun entry => !keys.contains entry.1) := by
  have hsplit := (List.filter_append_perm (fun entry : String × α => keys.contains entry.1) dict).symm
  refine hsplit.trans (List.Perm.append_right _ ?_)
  have hentries : dict.Nodup := hnodup.of_map
  rw [List.perm_ext_iff_of_nodup (hentries.filter _)
    (hkeys.map fun first second h => (Prod.mk.inj h).1)]
  intro entry
  rw [List.mem_filter, List.mem_map]
  constructor
  · intro h
    exact ⟨entry.1, by simpa using h.2, by rw [Dict.get_of_mem hnodup h.1]; rfl⟩
  · intro h
    obtain ⟨key, hkey, rfl⟩ := h
    cases hget : Dict.get dict key with
    | none => exact absurd (hmem key hkey) (Dict.get_eq_none_iff.mp hget)
    | some value => exact ⟨Dict.mem_of_get hget, by simpa using hkey⟩

theorem planWidgetUngroup_eq_some {rows : List WidgetRow} {plan : WidgetUngroupPlan}
    (h : planWidgetUngroup env store rows id = some plan) :
    (∃ row ∈ rows, id ∈ row.widgets) ∧ ∃ widget, Dict.get store.widgets id = some widget ∧
      plan.rows = ungroupedRows id ((pagesOf widget).flatMap fun page => store.rowsOf page.id) rows ∧
      plan.pages = (pagesOf widget).map WidgetPage.id := by
  unfold planWidgetUngroup at h
  split at h
  · cases h
  · rename_i row hrow
    split at h
    · cases h
    · cases h
    · rename_i pages hne hpages
      cases h
      obtain ⟨widget, hwidget, rfl⟩ := Option.map_eq_some_iff.mp hpages
      exact ⟨⟨row, List.mem_of_find?_eq_some hrow, by simpa using List.find?_some hrow⟩, widget, hwidget, rfl, rfl⟩

section Ungrouping

variable {rows : List WidgetRow} {widget : Widget γ} {layout : String} {after : List WidgetRow} (hwf : Wf store)
  (hlayout : Dict.get store.layouts layout = some rows) (hid : ∃ row ∈ rows, id ∈ row.widgets)
  (hwidget : Dict.get store.widgets id = some widget)
  (hafter : after = ungroupedRows id ((pagesOf widget).flatMap fun page => store.rowsOf page.id) rows)

include hlayout hid hwidget in
theorem page_mem_inner {page : String} (hpage : page ∈ (pagesOf widget).map WidgetPage.id) :
    page ∈ store.inner layout := by
  obtain ⟨row, hrow, hmem⟩ := hid
  refine mem_pagesWithin.mpr ⟨id, ?_, widget, hwidget, hpage⟩
  rw [rowsOf_eq hlayout]
  exact List.mem_flatMap.mpr ⟨row, hrow, hmem⟩

include hwf hlayout hid hwidget in
theorem layout_not_page : layout ∉ (pagesOf widget).map WidgetPage.id := by
  obtain ⟨rank, hrank⟩ := hwf.depth
  exact fun hmem => (hrank _ _ (page_mem_inner hlayout hid hwidget hmem)).ne rfl

include hwf hwidget in
theorem pages_nodup : ((pagesOf widget).map WidgetPage.id).Nodup := by
  have hnodup := (hwf.pages.nodup_iff.mpr hwf.layouts).of_cons
  exact (List.nodup_flatMap.mp hnodup).1 (id, widget) (Dict.mem_of_get hwidget)

include hwf hlayout hid hwidget in
theorem ungroup_layouts (after : List WidgetRow) : (Dict.set store.layouts layout after).Perm
      (((pagesOf widget).map fun page => (page.id, store.rowsOf page.id)) ++
        (Dict.set store.layouts layout after).filter fun entry =>
          !((pagesOf widget).map WidgetPage.id).contains entry.1) := by
  have hkeys := Dict.keys_set hlayout after
  have hnodup : (Dict.keys (Dict.set store.layouts layout after)).Nodup := hkeys ▸ hwf.layouts
  have hperm := perm_filter_keys [] hnodup (pages_nodup hwf hwidget) fun page hpage =>
    hkeys ▸ hwf.mem_keys_of_inner (page_mem_inner hlayout hid hwidget hpage)
  refine hperm.trans (List.Perm.append_right _ (List.Perm.of_eq ?_))
  rw [List.map_map]
  refine List.map_congr_left fun page hpage => ?_
  have hne : layout ≠ page.id := fun heq =>
    layout_not_page hwf hlayout hid hwidget (heq ▸ List.mem_map_of_mem hpage)
  show (page.id, (Dict.get (Dict.set store.layouts layout after) page.id).getD []) = (page.id, store.rowsOf page.id)
  rw [Dict.get_set, if_neg hne]
  rfl

include hwf hlayout hid hwidget in
theorem ungroup_total (f : WidgetRow → List String) (after : List WidgetRow) :
    (total f ((Dict.set store.layouts layout after).filter fun entry =>
        !((pagesOf widget).map WidgetPage.id).contains entry.1) : Multiset String) +
      (((pagesOf widget).flatMap fun page => store.rowsOf page.id).flatMap f : List String) +
        (rows.flatMap f : List String) = (total f store.layouts : Multiset String) + (after.flatMap f : List String) := by
  rw [← total_set f hlayout after]
  have hperm : (total f (Dict.set store.layouts layout after)).Perm _ :=
    List.Perm.flatMap_right _ (ungroup_layouts hwf hlayout hid hwidget after)
  have hsum := Multiset.coe_eq_coe.mpr hperm
  rw [coe_flatMap_append, List.flatMap_map] at hsum
  rw [hsum, List.flatMap_assoc, add_comm (total f _ : Multiset String)]
  rfl

include hwf hlayout hid hwidget hafter in
theorem ungroup_slots : (slots ((Dict.set store.layouts layout after).filter fun entry =>
        !((pagesOf widget).map WidgetPage.id).contains entry.1) : Multiset String) + {id} =
      (slots store.layouts : Multiset String) := by
  have hnodup : (rows.flatMap WidgetRow.widgets).Nodup :=
    (List.nodup_flatMap.mp (hwf.slots.nodup_iff.mpr hwf.widgets)).1 (layout, rows) (Dict.mem_of_get hlayout)
  have htotal := ungroup_total hwf hlayout hid hwidget WidgetRow.widgets after
  have hrows : (after.flatMap WidgetRow.widgets : Multiset String) + {id} =
      (rows.flatMap WidgetRow.widgets : List String) +
        (((pagesOf widget).flatMap fun page => store.rowsOf page.id).flatMap WidgetRow.widgets : List String) := by
    rw [hafter]
    exact ungrouped_slots rows hnodup hid
  unfold slots
  refine add_right_cancel (b := (((pagesOf widget).flatMap fun page => store.rowsOf page.id).flatMap
    WidgetRow.widgets : Multiset String) + (rows.flatMap WidgetRow.widgets : List String)) ?_
  rw [add_right_comm, ← add_assoc, htotal, add_assoc, hrows, add_comm (rows.flatMap WidgetRow.widgets : Multiset String)]

include hwf hlayout hid hwidget hafter in
theorem ungroup_rowIds : (rowIds ((Dict.set store.layouts layout after).filter fun entry =>
        !((pagesOf widget).map WidgetPage.id).contains entry.1) : Multiset String) ≤
      (rowIds store.layouts : Multiset String) := by
  have htotal := ungroup_total hwf hlayout hid hwidget (fun row => [row.id]) after
  refine le_of_add_le_add_right (a := (((pagesOf widget).flatMap fun page => store.rowsOf page.id).flatMap
    (fun row => [row.id]) : Multiset String) + (rows.flatMap (fun row => [row.id]) : List String)) ?_
  unfold rowIds
  rw [← add_assoc, htotal, hafter, add_comm (((pagesOf widget).flatMap fun page => store.rowsOf page.id).flatMap
    (fun row => [row.id]) : Multiset String)]
  exact add_le_add_right (ungrouped_ids rows) _

variable (id layout widget after store) in
/-- The workspace once the widget is dissolved. -/
def dissolved (widths : Dict String ℚ) : Store γ where
  layouts := (Dict.set store.layouts layout after).filter fun entry =>
    !((pagesOf widget).map WidgetPage.id).contains entry.1
  widgets := Dict.erase (withWidths store.widgets widths) id

theorem rowsOf_dissolved (widths : Dict String ℚ) (other : String) :
    (dissolved store id widget layout after widths).rowsOf other =
      if other ∈ (pagesOf widget).map WidgetPage.id then [] else if layout = other then after else store.rowsOf other := by
  unfold Store.rowsOf dissolved
  simp only
  rw [Dict.get_filter _ fun key => !((pagesOf widget).map WidgetPage.id).contains key]
  by_cases hpage : other ∈ (pagesOf widget).map WidgetPage.id
  · rw [if_neg (by simpa using hpage), if_pos hpage]
    rfl
  · rw [if_pos (by simpa using hpage), if_neg hpage, Dict.get_set]
    split <;> rfl

theorem get_dissolved (widths : Dict String ℚ) (other : String) :
    Dict.get (dissolved store id widget layout after widths).widgets other =
      if id = other then none else (Dict.get store.widgets other).map (resized widths other) := by
  unfold dissolved
  simp only
  rw [Dict.get_erase, withWidths_eq, get_mapped (resized widths)]

include hwf hlayout hid hwidget hafter in
/-- No layout is inside itself: what was two steps below is one. -/
theorem ungroup_depth (widths : Dict String ℚ) : ∃ rank : String → Nat, ∀ other page,
    page ∈ (dissolved store id widget layout after widths).inner other → rank other < rank page := by
  obtain ⟨rank, hrank⟩ := hwf.depth
  refine ⟨rank, fun other page hinner => ?_⟩
  obtain ⟨found, hfound, changed, hchanged, hpage⟩ := mem_pagesWithin.mp hinner
  rw [get_dissolved] at hchanged
  split at hchanged
  · cases hchanged
  · obtain ⟨before, hbefore, rfl⟩ := Option.map_eq_some_iff.mp hchanged
    rw [pagesOf_resized] at hpage
    have hinside : ∀ {above}, found ∈ (store.rowsOf above).flatMap WidgetRow.widgets → rank above < rank page :=
      fun habove => hrank _ _ (mem_pagesWithin.mpr ⟨found, habove, before, hbefore, hpage⟩)
    rw [rowsOf_dissolved] at hfound
    split at hfound
    · cases hfound
    · split at hfound
      · rename_i heq
        subst heq
        -- The rows that land were inside a page of the widget.
        have hnodup : (rows.flatMap WidgetRow.widgets).Nodup :=
          (List.nodup_flatMap.mp (hwf.slots.nodup_iff.mpr hwf.widgets)).1 (layout, rows) (Dict.mem_of_get hlayout)
        have hmem : found ∈ ((ungroupedRows id ((pagesOf widget).flatMap fun page => store.rowsOf page.id)
            rows).flatMap WidgetRow.widgets : Multiset String) + {id} :=
          Multiset.mem_add.mpr (.inl (hafter ▸ hfound))
        rw [ungrouped_slots rows hnodup hid, Multiset.mem_add] at hmem
        rcases hmem with hrow | hland
        · exact hinside (by rw [rowsOf_eq hlayout]; exact hrow)
        · obtain ⟨row, hrow, hland⟩ := List.mem_flatMap.mp hland
          obtain ⟨above, habove, hrow⟩ := List.mem_flatMap.mp hrow
          have hpage := page_mem_inner hlayout hid hwidget (List.mem_map_of_mem habove)
          exact (hrank _ _ hpage).trans (hinside (List.mem_flatMap.mpr ⟨row, hrow, hland⟩))
      · exact hinside hfound

include hlayout hafter in
theorem ungroup_empty (widths : Dict String ℚ) {other : String} {row : WidgetRow}
    (hrow : row ∈ (dissolved store id widget layout after widths).rowsOf other) (hempty : row.widgets = []) :
    ∃ before, row ∈ store.rowsOf before := by
  rw [rowsOf_dissolved] at hrow
  split at hrow
  · cases hrow
  · split at hrow
    · rw [hafter] at hrow
      rcases ungrouped_empty rows row hrow hempty with hold | hland
      · exact ⟨layout, by rw [rowsOf_eq hlayout]; exact hold⟩
      · obtain ⟨page, -, hland⟩ := List.mem_flatMap.mp hland
        exact ⟨page.id, hland⟩
    · exact ⟨other, hrow⟩

end Ungrouping

/-- The entries of a dictionary are the one under a key and the others. -/
theorem perm_cons_erase {α : Type} {dict : Dict String α} (hnodup : (Dict.keys dict).Nodup) {key : String} {value : α}
    (h : Dict.get dict key = some value) : dict.Perm ((key, value) :: Dict.erase dict key) := by
  have hperm := perm_filter_keys value hnodup (List.nodup_singleton key) fun other hother => by
    rw [List.mem_singleton.mp hother]
    exact Dict.mem_keys_of_mem (Dict.mem_of_get h)
  rw [List.map_singleton, h] at hperm
  refine hperm.trans (List.Perm.of_eq ?_)
  unfold Dict.erase
  rw [List.singleton_append, Option.getD_some]
  congr 1
  refine List.filter_congr fun entry _ => ?_
  simp

/-- **Dissolving a widget** leaves a well-formed workspace with the others. -/
theorem ungroup_spec (hwf : Wf store) (id : String) :
    ungroupWidget env store id = store ∨ Rearranged store (ungroupWidget env store id) [] [id] := by
  unfold ungroupWidget
  split
  · exact .inl rfl
  · rename_i layout rows plan hfirst
    obtain ⟨hmem, hplanned⟩ := firstPlan_eq_some _ hfirst
    obtain ⟨hid, widget, hwidget, hafter, hpages⟩ := planWidgetUngroup_eq_some hplanned
    have hlayout := Dict.get_of_mem hwf.layouts hmem
    rw [hpages]
    have hslots := ungroup_slots hwf hlayout hid hwidget hafter
    have hkeys : Dict.keys (withWidths store.widgets plan.widths) = Dict.keys store.widgets :=
      keys_mapped (resized plan.widths) store.widgets
    have hget : Dict.get (withWidths store.widgets plan.widths) id = some (resized plan.widths id widget) := by
      rw [withWidths_eq, get_mapped (resized plan.widths), hwidget]
      rfl
    have hnodup : (Dict.keys (withWidths store.widgets plan.widths)).Nodup := hkeys ▸ hwf.widgets
    have hperm := perm_cons_erase hnodup hget
    refine .inr ⟨⟨?_, ?_, ?_, ?_, ?_, ungroup_depth hwf hlayout hid hwidget hafter plan.widths⟩, ?_, ?_,
      fun other row hrow hempty => ungroup_empty hlayout hafter plan.widths hrow hempty⟩
    · have hset : (Dict.keys (Dict.set store.layouts layout plan.rows)).Nodup :=
        (Dict.keys_set hlayout plan.rows).symm ▸ hwf.layouts
      exact (List.filter_sublist.map Prod.fst).nodup hset
    · exact Dict.nodup_keys_erase hnodup id
    · exact Multiset.nodup_of_le (ungroup_rowIds hwf hlayout hid hwidget hafter) hwf.rows
    · have hall : (Dict.keys store.widgets : Multiset String) =
          (Dict.keys (Dict.erase (withWidths store.widgets plan.widths) id) : Multiset String) + {id} := by
        rw [← hkeys, add_comm, Multiset.singleton_add, Multiset.cons_coe]
        exact Multiset.coe_eq_coe.mpr (hperm.map Prod.fst)
      refine Multiset.coe_eq_coe.mp (add_right_cancel (b := {id}) ?_)
      rw [hslots, ← hall]
      exact Multiset.coe_eq_coe.mpr hwf.slots
    · have hwidgetPages : (pageIds store.widgets : Multiset String) = ((pagesOf widget).map WidgetPage.id : List String) +
          (pageIds (Dict.erase (withWidths store.widgets plan.widths) id) : Multiset String) := by
        rw [← pageIds_mapped (resized plan.widths) (pagesOf_resized plan.widths) store.widgets, ← withWidths_eq]
        unfold pageIds
        rw [Multiset.coe_add]
        exact Multiset.coe_eq_coe.mpr (List.Perm.flatMap_right _ hperm)
      have hlayoutPages : (Dict.keys store.layouts : Multiset String) = ((pagesOf widget).map WidgetPage.id : List String) +
          (Dict.keys ((Dict.set store.layouts layout plan.rows).filter fun entry =>
            !((pagesOf widget).map WidgetPage.id).contains entry.1) : Multiset String) := by
        have hmap := (ungroup_layouts hwf hlayout hid hwidget plan.rows).map Prod.fst
        rw [List.map_append, List.map_map] at hmap
        rw [← Dict.keys_set hlayout plan.rows, Multiset.coe_add]
        exact Multiset.coe_eq_coe.mpr hmap
      refine Multiset.coe_eq_coe.mp (add_left_cancel (a := (((pagesOf widget).map WidgetPage.id : List String) :
        Multiset String)) ?_)
      rw [← hlayoutPages, ← Multiset.coe_eq_coe.mpr hwf.pages, coe_cons, coe_cons, hwidgetPages, add_left_comm]
    · rw [List.append_nil]
      refine Multiset.coe_eq_coe.mp ?_
      rw [← Multiset.coe_add, Multiset.coe_singleton]
      exact hslots
    · intro other before hbefore hnot
      refine ⟨resized plan.widths other before, ?_, rfl⟩
      have hne : id ≠ other := fun heq => hnot (heq ▸ List.mem_cons_self)
      rw [Dict.get_erase, if_neg hne, withWidths_eq,
        get_mapped (resized plan.widths), hbefore]
      rfl

end Ungroup

/-! ## 7. Requests -/

/-- What a user does with the widgets of a workspace. -/
inductive Request where
  | move (ids : List String) (placement : WidgetPlacement)
  | group (ids : List String) (type : PagesWidgetType) (split : GroupSplit) (frameless : Bool)
  | ungroup (id : String)

def rearrange (env : Env γ) (store : Store γ) : Request → Store γ
  | .move ids placement => moveWidgets env store ids placement
  | .group ids type split frameless => groupWidgets env store ids type split frameless
  | .ungroup id => ungroupWidget env store id

/-- The widget a request adds: the holder of a group. -/
def Request.adds (env : Env γ) : Request → List String
  | .group _ _ _ _ => [env.v7 0]
  | _ => []

/-- The widget a request removes: the one that is dissolved. -/
def Request.removes : Request → List String
  | .ungroup id => [id]
  | _ => []

theorem rearrange_spec (hwf : Wf store) (hfresh : env.Fresh store) (request : Request) :
    rearrange env store request = store ∨
      Rearranged store (rearrange env store request) (request.adds env) request.removes := by
  cases request with
  | move ids placement => exact .inr (move_spec hwf hfresh ids placement)
  | group ids type split frameless => exact group_spec hwf hfresh ids type split frameless
  | ungroup id => exact ungroup_spec hwf id

/-- **Rearranging loses and doubles nothing**: a request on any workspace changes nothing, or leaves every
    widget in exactly one slot of a layout that the workspace reaches, with its content but for its width
    and its frame, the holder of a group added and the one that is dissolved gone; rows have distinct ids,
    a row without widgets was there without them before, and no layout is reached from inside itself. -/
theorem rearranged (env : Env γ) (store : Store γ) (hwf : Wf store) (hfresh : env.Fresh store)
    (request : Request) :
    (rearrange env store request = store ∨
      Rearranged store (rearrange env store request) (request.adds env) request.removes) ∧
    (∀ layout ∈ Dict.keys (rearrange env store request).layouts,
      Relation.ReflTransGen (Closure.Step (rearrange env store request).inner) rootLayoutId layout) ∧
    ∀ layout, ¬ Relation.TransGen (Closure.Step (rearrange env store request).inner) layout layout := by
  have hspec := rearrange_spec hwf hfresh request
  have hafter : Wf (rearrange env store request) := by
    rcases hspec with hsame | h
    · rw [hsame]
      exact hwf
    · exact h.wf
  exact ⟨hspec, fun _ hlayout => hafter.reached hlayout, hafter.not_inside_itself⟩

/-! ## 8. An empty row -/

namespace Sample

def row (id : String) (widgets : List String) : WidgetRow := ⟨id, 250, false, widgets⟩

/-- A widget beside tabs whose one page has a row without widgets. -/
def workspace : Store Unit where
  layouts := [("root", [row "r1" ["a"], row "r2" ["h"]]), ("p", [row "r3" []])]
  widgets := [("a", ⟨none, "", 120, false, [], ()⟩), ("h", ⟨some .tabs, "", 120, false, [⟨"p", ""⟩], ()⟩)]

def environment : Env Unit where
  resolveWidths := fun widths _ => widths
  filledWidths := id
  createWidget := fun type => ⟨some type, "", 120, false, [], ()⟩
  v7 := fun n => String.ofList ('v' :: List.replicate n 'v')

theorem wf : Wf workspace where
  layouts := by decide
  widgets := by decide
  rows := by decide
  slots := by decide
  pages := by decide
  depth := by
    refine ⟨fun layout => if layout = "p" then 1 else 0, fun layout page hpage => ?_⟩
    by_cases hroot : layout = "root"
    · subst hroot
      have hp : page = "p" := by simpa [workspace, Store.inner, Store.pagesWithin, Store.rowsOf, Dict.get, row,
        pagesOf] using hpage
      subst hp
      decide
    · by_cases hp : layout = "p"
      · subst hp
        simp [workspace, Store.inner, Store.pagesWithin, Store.rowsOf, Dict.get, row] at hpage
      · simp [workspace, Store.inner, Store.pagesWithin, Store.rowsOf, Dict.get, Ne.symm hroot, Ne.symm hp] at hpage

theorem v7_ne (n : Nat) {first : Char} {rest : List Char} (hne : first ≠ 'v') :
    environment.v7 n ≠ String.ofList (first :: rest) := by
  intro h
  have hchars := congrArg String.toList h
  simp [environment] at hchars
  exact hne hchars.1.symm

theorem fresh : environment.Fresh workspace where
  injective := by
    intro m n h
    have hchars := congrArg (fun text : String => text.toList.length) h
    simpa [environment] using hchars
  layouts := by
    intro n h
    rcases List.mem_cons.mp h with h | h
    · exact v7_ne n (by decide : 'r' ≠ 'v') h
    · exact v7_ne n (by decide : 'p' ≠ 'v') (List.mem_singleton.mp h)
  widgets := by
    intro n h
    rcases List.mem_cons.mp h with h | h
    · exact v7_ne n (by decide : 'a' ≠ 'v') h
    · exact v7_ne n (by decide : 'h' ≠ 'v') (List.mem_singleton.mp h)
  rows := by
    intro n h
    rcases List.mem_cons.mp h with h | h
    · exact v7_ne n (by decide : 'r' ≠ 'v') h
    · rcases List.mem_cons.mp h with h | h
      · exact v7_ne n (by decide : 'r' ≠ 'v') h
      · exact v7_ne n (by decide : 'r' ≠ 'v') (List.mem_singleton.mp h)

end Sample

/-- The move takes a widget into the page whose row is empty: the row stays. -/
theorem empty_row_stays : Wf Sample.workspace ∧ Sample.environment.Fresh Sample.workspace ∧
    Sample.row "r3" [] ∈
      (rearrange Sample.environment Sample.workspace (.move ["a"] ⟨"p", 0, none⟩)).rowsOf "p" ∧
    (rearrange Sample.environment Sample.workspace (.move ["a"] ⟨"p", 0, none⟩)).rowsOf "p" ≠
      Sample.workspace.rowsOf "p" :=
  ⟨Sample.wf, Sample.fresh, by decide, by decide⟩

theorem rearranged_sample :
    ("p" ∈ Dict.keys
        (rearrange Sample.environment Sample.workspace (.move ["a"] ⟨"p", 0, none⟩)).layouts ∧
      Relation.ReflTransGen (Closure.Step
        (rearrange Sample.environment Sample.workspace (.move ["a"] ⟨"p", 0, none⟩)).inner) rootLayoutId "p") ∧
    ¬ Relation.TransGen (Closure.Step
      (rearrange Sample.environment Sample.workspace (.move ["a"] ⟨"p", 0, none⟩)).inner) "p" "p" := by
  have h := rearranged Sample.environment Sample.workspace Sample.wf Sample.fresh (.move ["a"] ⟨"p", 0, none⟩)
  have hkey : "p" ∈ Dict.keys
      (rearrange Sample.environment Sample.workspace (.move ["a"] ⟨"p", 0, none⟩)).layouts := by
    decide
  exact ⟨⟨hkey, h.2.1 "p" hkey⟩, h.2.2 "p"⟩

end Ceres.Console.Layout
