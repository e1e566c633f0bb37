/-
  File:      Ceres/Console/Regroup.lean
  Subject:   MOVING, GROUPING AND UNGROUPING IN THE FILTER BAR (`console/app/filters/model.ts`).

  The root list joins its items by `and`, so an edit that only moves them, or that puts some of them into a
  block joined by `and`, shows the same. The engine reads some conditions of one node together, and only the
  root's conditions stand in one node: an edit that takes one of these out of the root, or puts another one in
  front of it, changes what is read together.

  * `withMoved`, `withGrouped`, `withUngrouped` -- the edits;
  * `jointGroups` -- the kinds that are read together; `Undisturbed` -- an edit that leaves them at the top, or
    finds none of them together there;
  * **`edited_matches`** -- such an edit leaves what the engine says of a record.
-/
import Ceres.Console.Compile

namespace Ceres.Console.Query

open Ceres.Library
open Ceres.Data
open Ceres.Database

set_option linter.unusedSectionVars false

/-! ## 1. The edits -/

section Edits

variable {α : Type}

/-- Insert `items` at `index` of the root list, clamped to its bounds. -/
def withInserted (query items : FilterQuery α) (index : Int) : FilterQuery α :=
  let at_ := (max 0 (min index query.length)).toNat
  query.take at_ ++ items ++ query.drop at_

/-- `slice(0, index)`; a negative index counts from the end. -/
def sliceTo (query : FilterQuery α) (index : Int) : FilterQuery α :=
  query.take (if index < 0 then (query.length + index).toNat else index.toNat)

/-- Move the root-level items in `ids` to sit before the root index `index`. -/
def withMoved (query : FilterQuery α) (ids : String → Bool) (index : Int) : FilterQuery α :=
  let moving := query.filter fun item => ids item.id
  if moving.length = 0 then query
  else
    let kept := query.filter fun item => !ids item.id
    let movedBefore := ((sliceTo query index).filter fun item => ids item.id).length
    withInserted kept moving (index - movedBefore)

/-- The root-level items in `ids` grouped into one block of `op`, whose id is `fresh`, standing where the first
    of them stood. -/
def withGrouped (query : FilterQuery α) (ids : String → Bool) (op : BlockOp) (fresh : String) : FilterQuery α :=
  match query.findIdx? fun item => ids item.id with
  | none => query
  | some first =>
    let grouped := .block fresh op (query.filter fun item => ids item.id)
    query.zipIdx.flatMap fun entry =>
      if entry.2 = first then [grouped] else if !ids entry.1.id then [entry.1] else []

mutual

/-- What stands for an item when the block `id` is dissolved. -/
def FilterItem.ungrouped (id : String) : FilterItem α → FilterQuery α
  | .condition own kind value => [.condition own kind value]
  | .block own op children => if own = id then children else [.block own op (withUngrouped children id)]

/-- The block `id` dissolved, its children standing where it stood. -/
def withUngrouped : FilterQuery α → String → FilterQuery α
  | [], _ => []
  | item :: rest, id => item.ungrouped id ++ withUngrouped rest id

end

theorem withMoved_perm (query : FilterQuery α) (ids : String → Bool) (index : Int) :
    (withMoved query ids index).Perm query := by
  unfold withMoved
  simp only
  split
  · exact List.Perm.refl _
  · have hsplit := List.filter_append_perm (fun item : FilterItem α => ids item.id) query
    unfold withInserted
    refine List.Perm.trans ?_ hsplit
    refine (List.perm_append_comm.append_right _).trans ?_
    rw [List.append_assoc, List.take_append_drop]

theorem withGrouped_perm (query : FilterQuery α) (ids : String → Bool) (op : BlockOp) (fresh : String) :
    withGrouped query ids op fresh = query ∨ (withGrouped query ids op fresh).Perm
        (.block fresh op (query.filter fun item => ids item.id) :: query.filter fun item => !ids item.id) := by
  -- behind the first of them, the items that are kept
  have hrest : ∀ (rest : FilterQuery α) (grouped : FilterItem α) (first start : Nat), first < start →
      (rest.zipIdx start).flatMap (fun entry =>
        if entry.2 = first then [grouped] else if !ids entry.1.id then [entry.1] else []) =
      rest.filter fun item => !ids item.id := by
    intro rest grouped first
    induction rest with
    | nil => exact fun _ _ => rfl
    | cons item rest ih =>
      intro start hstart
      have hne : ¬ start = first := by omega
      rw [List.zipIdx_cons, List.flatMap_cons, ih (start + 1) (by omega), if_neg hne, List.filter_cons]
      split <;> rfl
  have hall : ∀ (items : FilterQuery α) (grouped : FilterItem α) (start first : Nat),
      items.findIdx? (fun item => ids item.id) = some first →
      ((items.zipIdx start).flatMap fun entry =>
        if entry.2 = start + first then [grouped] else if !ids entry.1.id then [entry.1] else []).Perm
      (grouped :: items.filter fun item => !ids item.id) := by
    intro items grouped
    induction items with
    | nil => exact fun _ _ h => by cases h
    | cons item items ih =>
      intro start first hfirst
      rw [List.findIdx?_cons] at hfirst
      rw [List.zipIdx_cons, List.flatMap_cons]
      by_cases hitem : ids item.id = true
      · rw [if_pos hitem] at hfirst
        cases hfirst
        rw [Nat.add_zero, if_pos rfl, hrest items grouped start (start + 1) (Nat.lt_succ_self start),
          List.filter_cons_of_neg (by rw [hitem]; exact Bool.false_ne_true)]
        exact List.Perm.refl _
      · rw [if_neg hitem] at hfirst
        obtain ⟨next, hnext, rfl⟩ := Option.map_eq_some_iff.mp hfirst
        have hfalse : ids item.id = false := Bool.eq_false_iff.mpr hitem
        have hne : ¬ start = start + (next + 1) := by omega
        have hshift : start + (next + 1) = start + 1 + next := by omega
        rw [if_neg hne, hshift, hfalse, List.filter_cons_of_pos (by rw [hfalse]; rfl)]
        exact ((ih (start + 1) next hnext).cons item).trans (List.Perm.swap grouped item _)
  unfold withGrouped
  cases hfirst : query.findIdx? fun item => ids item.id with
  | none => exact .inl rfl
  | some first =>
    have hgrouped := hall query (.block fresh op (query.filter fun item => ids item.id)) 0 first hfirst
    rw [Nat.zero_add] at hgrouped
    exact .inr hgrouped

mutual

theorem ungrouped_of_not_mem : ∀ (item : FilterItem α) {id : String}, id ∉ item.ids → item.ungrouped id = [item]
  | .condition own kind value, _, _ => by rw [FilterItem.ungrouped]
  | .block own op children, id, h => by
      rw [FilterItem.ids, List.mem_cons, not_or] at h
      rw [FilterItem.ungrouped, if_neg (Ne.symm h.1), withUngrouped_of_not_mem children h.2]

theorem withUngrouped_of_not_mem : ∀ (query : FilterQuery α) {id : String},
    id ∉ queryIds query → withUngrouped query id = query
  | [], _, _ => by rw [withUngrouped]
  | item :: rest, id, h => by
      rw [queryIds, List.mem_append, not_or] at h
      rw [withUngrouped, ungrouped_of_not_mem item h.1, withUngrouped_of_not_mem rest h.2, List.singleton_append]

end

theorem withUngrouped_append (front back : FilterQuery α) (id : String) :
    withUngrouped (front ++ back) id = withUngrouped front id ++ withUngrouped back id := by
  induction front with
  | nil =>
    rw [withUngrouped]
    rfl
  | cons item front ih => rw [List.cons_append, withUngrouped, withUngrouped, ih, List.append_assoc]

theorem withUngrouped_root {front back : FilterQuery α} {id : String} (op : BlockOp) (children : FilterQuery α)
    (hfront : id ∉ queryIds front) (hback : id ∉ queryIds back) :
    withUngrouped (front ++ .block id op children :: back) id = front ++ children ++ back := by
  rw [withUngrouped_append, withUngrouped_of_not_mem front hfront, withUngrouped, FilterItem.ungrouped, if_pos rfl,
    withUngrouped_of_not_mem back hback, List.append_assoc]

end Edits

/-- One of the edits that keep the query joined by `and`. -/
inductive Edited {α : Type} (query : FilterQuery α) : FilterQuery α → Prop where
  | moved (ids : String → Bool) (index : Int) : Edited query (withMoved query ids index)
  | grouped (ids : String → Bool) (fresh : String) : Edited query (withGrouped query ids .and_ fresh)
  | ungrouped (front : FilterQuery α) (id : String) (children back : FilterQuery α)
      (hquery : query = front ++ .block id .and_ children :: back) (hfront : id ∉ queryIds front)
      (hback : id ∉ queryIds back) : Edited query (withUngrouped query id)

/-! ## 2. What an edit keeps -/

theorem conditionsOf_eq : ∀ items : List (FilterItem Json), conditionsOf items = items.flatMap FilterItem.conditions
  | [] => rfl
  | item :: rest => by rw [conditionsOf, conditionsOf_eq rest, List.flatMap_cons]

theorem conditionsOf_perm {items items' : List (FilterItem Json)} (h : items.Perm items') :
    (conditionsOf items).Perm (conditionsOf items') := by
  rw [conditionsOf_eq, conditionsOf_eq]
  exact h.flatMap_right _

theorem conditionsOf_append (front back : List (FilterItem Json)) :
    conditionsOf (front ++ back) = conditionsOf front ++ conditionsOf back := by
  rw [conditionsOf_eq, conditionsOf_eq, conditionsOf_eq, List.flatMap_append]

/-- `items` stand in the list `loose`; in the list `bound` a block joined by `and` holds them. -/
def Regrouped (items loose bound : List (FilterItem Json)) : Prop :=
  ∃ fresh others, loose.Perm (items ++ others) ∧ bound.Perm (.block fresh .and_ items :: others)

theorem Regrouped.conditions {items loose bound : List (FilterItem Json)} (h : Regrouped items loose bound) :
    (conditionsOf bound).Perm (conditionsOf loose) := by
  obtain ⟨fresh, others, hloose, hbound⟩ := h
  have hsame := conditionsOf_perm hbound
  rw [conditionsOf, FilterItem.conditions, ← conditionsOf_append] at hsame
  exact hsame.trans (conditionsOf_perm hloose).symm

/-- Each edit moves the items of the root, or puts some of them into a block or out of it. -/
theorem Edited.cases {query edited : FilterQuery Json} (h : Edited query edited) :
    edited.Perm query ∨ (∃ items, Regrouped items query edited) ∨ ∃ items, Regrouped items edited query := by
  cases h with
  | moved ids index => exact .inl (withMoved_perm query ids index)
  | grouped ids fresh =>
    rcases withGrouped_perm query ids .and_ fresh with hsame | hgrouped
    · rw [hsame]
      exact .inl (List.Perm.refl _)
    · exact .inr (.inl ⟨_, fresh, _, (List.filter_append_perm _ query).symm, hgrouped⟩)
  | ungrouped front id children back hquery hfront hback =>
    subst hquery
    rw [withUngrouped_root .and_ children hfront hback]
    refine .inr (.inr ⟨children, id, front ++ back, ?_, List.perm_middle⟩)
    rw [← List.append_assoc]
    exact List.perm_append_comm.append_right back

section Sentences

variable (meaning : String → Json → Bool)

theorem sentencesOf_unset : ∀ {items : List (FilterItem Json)}, anySet items = false → sentencesOf meaning items = []
  | [], _ => rfl
  | item :: items, h => by
      rw [anySet, Bool.or_eq_false_iff] at h
      have hitem : item.sentences meaning = [] := by
        cases item with
        | condition id kind value =>
          rw [FilterItem.isSet] at h
          rw [FilterItem.sentences, h.1, if_neg Bool.false_ne_true]
        | block id op children =>
          rw [FilterItem.isSet] at h
          rw [FilterItem.sentences, h.1, if_neg Bool.false_ne_true]
      have hitems : sentencesOf meaning items = [] := sentencesOf_unset h.2
      rw [sentencesOf, List.flatMap_cons, hitem, List.nil_append]
      exact hitems

theorem sentencesOf_perm {items items' : List (FilterItem Json)} (h : items.Perm items') :
    (sentencesOf meaning items).Perm (sentencesOf meaning items') := h.flatMap_right _

theorem sentencesOf_append (front back : List (FilterItem Json)) :
    sentencesOf meaning (front ++ back) = sentencesOf meaning front ++ sentencesOf meaning back := List.flatMap_append

end Sentences

/-! ## 3. What is read together -/

/-- The kinds of which the engine reads several together. -/
def jointGroups : List (List String) :=
  [["timespan", "after", "before"], ["after_hour", "before_hour"], ["after_minute", "before_minute"]]

/-- The entries of a group's kinds, and the others. -/
def jointPart (group : List String) (entries : Object) : Object := entries.filter fun entry => group.contains entry.1

def otherPart (group : List String) (entries : Object) : Object := entries.filter fun entry => !group.contains entry.1

/-- Of each group, the same conditions stand at the top before and after the edit, or none is read together
    with another, neither before nor after. -/
def Undisturbed (query edited : FilterQuery Json) : Prop :=
  ∀ group ∈ jointGroups, (jointPart group (topOf query)).Perm (jointPart group (topOf edited)) ∨
    (Apart ((jointPart group (topOf query)).map Prod.fst) ∧ Apart ((jointPart group (topOf edited)).map Prod.fst))

theorem registry_groups (recordKind : RecordKind) : ∀ group ∈ jointGroups, ∀ kind ∈ definitionsFor recordKind,
    group.contains kind = true → (slotOf recordKind kind).map Slot.listed = some false ∧
        ∀ other ∈ definitionsFor recordKind, group.contains other = false →
          ((slotOf recordKind kind).bind fun slot => (slotOf recordKind other).map slot.together) = some false := by
  cases recordKind <;> decide +kernel

theorem apart_outside {kinds : List String} (h : ∀ group ∈ jointGroups, ∀ kind ∈ kinds, group.contains kind = false) :
    Apart kinds := by
  have hnot : ∀ group ∈ jointGroups, ∀ kind ∈ group, kind ∉ kinds := fun group hgroup kind hkind hmem => by
    have hcontains := h group hgroup kind hmem
    rw [List.contains_iff_mem.mpr hkind] at hcontains
    cases hcontains
  have hspan : "timespan" ∉ kinds := hnot _ List.mem_cons_self _ List.mem_cons_self
  have hhour : "after_hour" ∉ kinds := hnot _ (List.mem_cons_of_mem _ List.mem_cons_self) _ List.mem_cons_self
  have hminute : "after_minute" ∉ kinds :=
    hnot _ (List.mem_cons_of_mem _ (List.mem_cons_of_mem _ List.mem_cons_self)) _ List.mem_cons_self
  exact ⟨fun h => (hspan h).elim, fun h => hhour h.1, fun h => hminute h.1⟩

/-- A fold may take first what can stand before everything else. -/
theorem foldl_filter_first {α β : Type} {f : β → α → β} (P : α → Bool) : ∀ (xs : List α) (z : β),
    (∀ x ∈ xs, ∀ y ∈ xs, P x = true → P y = false → ∀ z, f (f z x) y = f (f z y) x) →
    xs.foldl f z = (xs.filter P ++ xs.filter fun x => !P x).foldl f z
  | [], _, _ => rfl
  | x :: xs, z, h => by
      have htail := foldl_filter_first P xs (f z x) fun a ha b hb =>
        h a (List.mem_cons_of_mem x ha) b (List.mem_cons_of_mem x hb)
      rw [List.foldl_cons, htail]
      by_cases hx : P x = true
      · rw [List.filter_cons_of_pos hx, List.filter_cons_of_neg (by rw [hx]; exact Bool.false_ne_true)]
        rfl
      · have hfalse : P x = false := Bool.eq_false_iff.mpr hx
        rw [List.filter_cons_of_neg hx, List.filter_cons_of_pos (by rw [hfalse]; rfl), List.foldl_append,
          List.foldl_append, List.foldl_cons]
        -- `x` moves behind the elements that come first
        have hmove : ∀ (front : List α), (∀ a ∈ front, a ∈ xs ∧ P a = true) → ∀ z,
            front.foldl f (f z x) = f (front.foldl f z) x := by
          intro front
          induction front with
          | nil => exact fun _ _ => rfl
          | cons a front ih =>
            intro hfront z
            obtain ⟨⟨hmem, ha⟩, hrest⟩ := List.forall_mem_cons.mp hfront
            rw [List.foldl_cons, List.foldl_cons, ← ih hrest,
              h a (List.mem_cons_of_mem x hmem) x List.mem_cons_self ha hfalse]
        rw [hmove _ fun a ha => List.mem_filter.mp ha]

section Engine

variable {F : Type} (readers : ValueReaders F) (jsonText : Json → Text) (lower : Text → Text)
variable (recordKind : RecordKind) (fields : Fields) (now : Int)

/-! ## 4. The conditions at the top, group by group -/

theorem ownOf_append (front back : Object) :
    ownOf readers recordKind (front ++ back) = (ownOf readers recordKind front).join (ownOf readers recordKind back) := by
  have hfold : ∀ (fills : List (Slot × Conditions)) (own : Conditions),
      fills.foldl (fun own entry => own.join entry.2) own =
        own.join (fills.foldl (fun own entry => own.join entry.2) {}) := by
    intro fills
    induction fills with
    | nil => exact fun own => (Conditions.join_empty own).symm
    | cons fill fills ih =>
      intro own
      rw [List.foldl_cons, List.foldl_cons, ih (own.join fill.2), ih (Conditions.join {} fill.2),
        Conditions.empty_join, Conditions.join_assoc]
  rw [ownOf, List.map_append, List.foldl_append, hfold]
  rfl

section Entries

variable {entries : Object} (h : ∀ entry ∈ entries, Taken readers jsonText lower recordKind fields now entry)
variable (hnodup : (entries.map Prod.fst).Nodup)

include h hnodup

theorem fill_ne {entry other : String × Json} (hentry : entry ∈ entries) (hother : other ∈ entries)
    (hne : entry ≠ other) : (fillOf readers recordKind entry).1 ≠ (fillOf readers recordKind other).1 := by
  intro heq
  have hslots := slots_nodup readers jsonText lower recordKind fields now h hnodup
  exact hne (List.inj_on_of_nodup_map hslots hentry hother heq)

theorem fill_comm {group : List String} (hgroup : group ∈ jointGroups) {entry other : String × Json}
    (hentry : entry ∈ entries) (hother : other ∈ entries) (hkind : group.contains entry.1 = true) (hne : entry ≠ other)
    (own : Conditions) : (own.join (fillOf readers recordKind entry).2).join (fillOf readers recordKind other).2 =
      (own.join (fillOf readers recordKind other).2).join (fillOf readers recordKind entry).2 := by
  obtain ⟨_, _, _, hslotOf, _, _, hdelta, _⟩ := fills_fillOf readers jsonText lower recordKind fields now (h entry hentry)
  obtain ⟨_, _, _, _, _, _, hdelta', _⟩ := fills_fillOf readers jsonText lower recordKind fields now (h other hother)
  have hlisted := (registry_groups recordKind group hgroup entry.1 (h entry hentry).2.1 hkind).1
  rw [hslotOf, Option.map_some] at hlisted
  exact Conditions.join_comm hdelta (Option.some.inj hlisted) hdelta'
    (fill_ne readers jsonText lower recordKind fields now h hnodup hentry hother hne) own

theorem ownOf_split {group : List String} (hgroup : group ∈ jointGroups) : ownOf readers recordKind entries =
      (ownOf readers recordKind (jointPart group entries)).join (ownOf readers recordKind (otherPart group entries)) := by
  rw [← ownOf_append, ownOf, ownOf, List.foldl_map, List.foldl_map]
  refine foldl_filter_first _ entries ({} : Conditions) fun entry hentry other hother hkind hnot own => ?_
  refine fill_comm readers jsonText lower recordKind fields now h hnodup hgroup hentry hother hkind ?_ own
  rintro rfl
  rw [hkind] at hnot
  cases hnot

theorem own_split {group : List String} (hgroup : group ∈ jointGroups) {p q : Bool}
    (hjoint : (ownOf readers recordKind (jointPart group entries)).matchesOwn jsonText lower recordKind.table.schema
      fields now = some p)
    (hother : (ownOf readers recordKind (otherPart group entries)).matchesOwn jsonText lower recordKind.table.schema
      fields now = some q) :
    (ownOf readers recordKind entries).matchesOwn jsonText lower recordKind.table.schema fields now =
      some (p && q) := by
  have hjointTaken : ∀ entry ∈ jointPart group entries, Taken readers jsonText lower recordKind fields now entry :=
    fun entry hentry => h entry (List.mem_filter.mp hentry).1
  have hotherTaken : ∀ entry ∈ otherPart group entries, Taken readers jsonText lower recordKind fields now entry :=
    fun entry hentry => h entry (List.mem_filter.mp hentry).1
  have hages := slots_ages readers jsonText lower recordKind fields now h
  rw [ownOf_split readers jsonText lower recordKind fields now h hnodup hgroup]
  refine matchesOwn_join jsonText lower fields now (beside_of_clear
    (ownOf_filled readers jsonText lower recordKind fields now hjointTaken)
    (ownOf_filled readers jsonText lower recordKind fields now hotherTaken) ⟨?_, ?_, ?_⟩) _ p q hjoint hother
  · intro slot hslot hslot'
    obtain ⟨entry, hentry, rfl⟩ := List.mem_map.mp hslot
    obtain ⟨other, hother, heq⟩ := List.mem_map.mp hslot'
    obtain ⟨hmem, hkind⟩ := List.mem_filter.mp hentry
    obtain ⟨hmem', hnot⟩ := List.mem_filter.mp hother
    refine fill_ne readers jsonText lower recordKind fields now h hnodup hmem hmem' ?_ heq.symm
    rintro rfl
    rw [hkind] at hnot
    cases hnot
  · intro slot hslot slot' hslot'
    obtain ⟨entry, hentry, rfl⟩ := List.mem_map.mp hslot
    obtain ⟨other, hother, rfl⟩ := List.mem_map.mp hslot'
    obtain ⟨hmem, hkind⟩ := List.mem_filter.mp hentry
    obtain ⟨hmem', hnot⟩ := List.mem_filter.mp hother
    have hfalse : group.contains other.1 = false := by
      rw [← Bool.not_eq_true']
      exact hnot
    have htogether := (registry_groups recordKind group hgroup entry.1 (h entry hmem).2.1 hkind).2 other.1
      (h other hmem').2.1 hfalse
    obtain ⟨_, _, _, hslotOf, _⟩ := fills_fillOf readers jsonText lower recordKind fields now (h entry hmem)
    obtain ⟨_, _, _, hslotOf', _⟩ := fills_fillOf readers jsonText lower recordKind fields now (h other hmem')
    rw [hslotOf, hslotOf', Option.bind_some, Option.map_some] at htogether
    exact Option.some.inj htogether
  · have hsub : ∀ slot ∈ slotsOf readers recordKind (jointPart group entries) ++
        slotsOf readers recordKind (otherPart group entries), slot ∈ slotsOf readers recordKind entries := by
      intro slot hslot
      rcases List.mem_append.mp hslot with hslot | hslot
      · obtain ⟨entry, hentry, rfl⟩ := List.mem_map.mp hslot
        exact List.mem_map_of_mem (List.mem_filter.mp hentry).1
      · obtain ⟨entry, hentry, rfl⟩ := List.mem_map.mp hslot
        exact List.mem_map_of_mem (List.mem_filter.mp hentry).1
    exact ⟨fun hage => hages.1 (hsub _ hage), fun hage => hages.2 (hsub _ hage)⟩

end Entries

/-- What the engine says of entries that stand in one node. -/
def ownSays (entries : Object) : Option Bool :=
  (ownOf readers recordKind entries).matchesOwn jsonText lower recordKind.table.schema fields now

def eachSays (entries : Object) : Bool :=
  entries.all fun entry => meaning readers jsonText lower recordKind fields now entry.1 entry.2

/-- Two lists of entries that have some in common, in whatever way these are read, and whose others are read one
    by one. -/
def Sharing (entries entries' : Object) : Prop :=
  ∃ (common common' rest rest' : Object) (verdict : Bool), common.Perm common' ∧ entries.Perm (common ++ rest) ∧
    entries'.Perm (common' ++ rest') ∧
    ownSays readers jsonText lower recordKind fields now entries =
      some (verdict && eachSays readers jsonText lower recordKind fields now rest) ∧
    ownSays readers jsonText lower recordKind fields now entries' =
      some (verdict && eachSays readers jsonText lower recordKind fields now rest')

section Pair

variable {entries entries' : Object} (h : ∀ entry ∈ entries, Taken readers jsonText lower recordKind fields now entry)
variable (hnodup : (entries.map Prod.fst).Nodup)
variable (h' : ∀ entry ∈ entries', Taken readers jsonText lower recordKind fields now entry)
variable (hnodup' : (entries'.map Prod.fst).Nodup)

include h hnodup

theorem sharing_of_perm {group : List String} (hgroup : group ∈ jointGroups)
    (hkinds : ∀ entry ∈ entries, group.contains entry.1 = true) (hperm : entries.Perm entries')
    (hsome : (ownSays readers jsonText lower recordKind fields now entries).isSome) :
    Sharing readers jsonText lower recordKind fields now entries entries' := by
  have hown : ownOf readers recordKind entries = ownOf readers recordKind entries' := by
    rw [ownOf, ownOf, List.foldl_map, List.foldl_map]
    refine hperm.foldl_eq' (fun entry hentry other hother own => ?_) ({} : Conditions)
    by_cases hsame : entry = other
    · rw [hsame]
    · exact fill_comm readers jsonText lower recordKind fields now h hnodup hgroup hentry hother
        (hkinds entry hentry) hsame own
  obtain ⟨verdict, hverdict⟩ := Option.isSome_iff_exists.mp hsome
  refine ⟨entries, entries', [], [], verdict, hperm, ?_, ?_, ?_, ?_⟩
  · rw [List.append_nil]
  · rw [List.append_nil]
  · rw [hverdict, eachSays, List.all_nil, Bool.and_true]
  · rw [ownSays, ← hown, eachSays, List.all_nil, Bool.and_true]
    exact hverdict

include h' hnodup'

theorem sharing_of_apart (hapart : Apart (entries.map Prod.fst)) (hapart' : Apart (entries'.map Prod.fst)) :
    Sharing readers jsonText lower recordKind fields now entries entries' :=
  ⟨[], [], entries, entries', true, List.Perm.refl _, List.Perm.refl _, List.Perm.refl _,
    ownOf_apart readers jsonText lower recordKind fields now h hnodup hapart,
    ownOf_apart readers jsonText lower recordKind fields now h' hnodup' hapart'⟩

theorem sharing_split {group : List String} (hgroup : group ∈ jointGroups)
    (hjoint : Sharing readers jsonText lower recordKind fields now (jointPart group entries) (jointPart group entries'))
    (hother : Sharing readers jsonText lower recordKind fields now (otherPart group entries)
      (otherPart group entries')) : Sharing readers jsonText lower recordKind fields now entries entries' := by
  obtain ⟨common₁, common₁', rest₁, rest₁', verdict₁, hcommon₁, hperm₁, hperm₁', hown₁, hown₁'⟩ := hjoint
  obtain ⟨common₂, common₂', rest₂, rest₂', verdict₂, hcommon₂, hperm₂, hperm₂', hown₂, hown₂'⟩ := hother
  have hsplit : ∀ {entries common₁ common₂ rest₁ rest₂ : Object},
      (jointPart group entries).Perm (common₁ ++ rest₁) → (otherPart group entries).Perm (common₂ ++ rest₂) →
      entries.Perm ((common₁ ++ common₂) ++ (rest₁ ++ rest₂)) := by
    intro entries common₁ common₂ rest₁ rest₂ hfirst hsecond
    have hboth := (List.filter_append_perm _ entries).symm.trans (hfirst.append hsecond)
    refine hboth.trans ?_
    rw [List.append_assoc, List.append_assoc, ← List.append_assoc rest₁, ← List.append_assoc common₂]
    exact (List.perm_append_comm.append_right rest₂).append_left common₁
  have hmerge : ∀ {entries rest₁ rest₂ : Object}, (∀ entry ∈ entries, Taken readers jsonText lower recordKind fields
        now entry) → (entries.map Prod.fst).Nodup →
      ownSays readers jsonText lower recordKind fields now (jointPart group entries) =
        some (verdict₁ && eachSays readers jsonText lower recordKind fields now rest₁) →
      ownSays readers jsonText lower recordKind fields now (otherPart group entries) =
        some (verdict₂ && eachSays readers jsonText lower recordKind fields now rest₂) →
      ownSays readers jsonText lower recordKind fields now entries =
        some ((verdict₁ && verdict₂) && eachSays readers jsonText lower recordKind fields now (rest₁ ++ rest₂)) := by
    intro entries rest₁ rest₂ htaken hkeys hfirst hsecond
    have hboth := own_split readers jsonText lower recordKind fields now htaken hkeys hgroup hfirst hsecond
    rw [ownSays, hboth, eachSays, eachSays, eachSays, List.all_append]
    have hswap : ∀ a b c d : Bool, (a && b && (c && d)) = (a && c && (b && d)) := by decide
    rw [hswap]
  exact ⟨common₁ ++ common₂, common₁' ++ common₂', rest₁ ++ rest₂, rest₁' ++ rest₂', verdict₁ && verdict₂,
    hcommon₁.append hcommon₂, hsplit hperm₁ hperm₂, hsplit hperm₁' hperm₂', hmerge h hnodup hown₁ hown₂,
    hmerge h' hnodup' hown₁' hown₂'⟩

end Pair

/-- The entries whose kinds are in none of the groups. -/
def outside (groups : List (List String)) (entries : Object) : Object :=
  entries.filter fun entry => groups.all fun group => !group.contains entry.1

theorem outside_cons (group : List String) (groups : List (List String)) (entries : Object) :
    outside (group :: groups) entries = outside groups (otherPart group entries) := by
  rw [outside, outside, otherPart, List.filter_filter]
  exact List.filter_congr fun entry _ => Bool.and_comm _ _

theorem jointPart_otherPart {group group' : List String} (h : ∀ kind ∈ group', group.contains kind = false)
    (entries : Object) : jointPart group' (otherPart group entries) = jointPart group' entries := by
  rw [jointPart, jointPart, otherPart, List.filter_filter]
  refine List.filter_congr fun entry _ => ?_
  cases hkind : group'.contains entry.1 with
  | false => rfl
  | true => rw [h _ (List.contains_iff_mem.mp hkind), Bool.not_false, Bool.true_and]

theorem taken_filter {entries : Object} (P : String × Json → Bool)
    (h : ∀ entry ∈ entries, Taken readers jsonText lower recordKind fields now entry) :
    ∀ entry ∈ entries.filter P, Taken readers jsonText lower recordKind fields now entry :=
  fun entry hentry => h entry (List.mem_filter.mp hentry).1

theorem nodup_filter {entries : Object} (P : String × Json → Bool) (h : (entries.map Prod.fst).Nodup) :
    ((entries.filter P).map Prod.fst).Nodup := h.sublist (List.filter_sublist.map Prod.fst)

theorem sharing_groups : ∀ (groups : List (List String)), (∀ group ∈ groups, group ∈ jointGroups) →
    groups.Pairwise (fun group group' => ∀ kind ∈ group', group.contains kind = false) → ∀ {entries entries' : Object},
    (∀ entry ∈ entries, Taken readers jsonText lower recordKind fields now entry) → (entries.map Prod.fst).Nodup →
    (∀ entry ∈ entries', Taken readers jsonText lower recordKind fields now entry) → (entries'.map Prod.fst).Nodup →
    (∀ group ∈ groups, Sharing readers jsonText lower recordKind fields now (jointPart group entries)
      (jointPart group entries')) →
    Sharing readers jsonText lower recordKind fields now (outside groups entries) (outside groups entries') →
    Sharing readers jsonText lower recordKind fields now entries entries'
  | [], _, _, entries, entries', _, _, _, _, _, hrest => by
      have hall : ∀ more : Object, outside [] more = more := fun more => List.filter_eq_self.mpr fun _ _ => rfl
      rw [hall, hall] at hrest
      exact hrest
  | group :: groups, hgroups, hpairwise, entries, entries', h, hnodup, h', hnodup', hjoint, hrest => by
      obtain ⟨hgroup, hmore⟩ := List.forall_mem_cons.mp hgroups
      obtain ⟨hdisjoint, hpairwise⟩ := List.pairwise_cons.mp hpairwise
      obtain ⟨hfirst, hothers⟩ := List.forall_mem_cons.mp hjoint
      rw [outside_cons, outside_cons] at hrest
      refine sharing_split readers jsonText lower recordKind fields now h hnodup h' hnodup' hgroup hfirst ?_
      refine sharing_groups groups hmore hpairwise (taken_filter readers jsonText lower recordKind fields now _ h)
        (nodup_filter _ hnodup) (taken_filter readers jsonText lower recordKind fields now _ h')
        (nodup_filter _ hnodup') (fun other hother => ?_) hrest
      rw [jointPart_otherPart (hdisjoint other hother), jointPart_otherPart (hdisjoint other hother)]
      exact hothers other hother

/-- The engine takes each condition alone, and those of one group that stand at the top together. -/
def Together (query : FilterQuery Json) : Prop :=
  ∀ group ∈ jointGroups,
    (engineMatches readers jsonText lower recordKind fields now (jointPart group (topOf query))).isSome

theorem engine_entries {entries : Object} (h : ∀ entry ∈ entries, Taken readers jsonText lower recordKind fields now entry)
    (hnodup : (entries.map Prod.fst).Nodup) : engineMatches readers jsonText lower recordKind fields now entries =
      ownSays readers jsonText lower recordKind fields now entries := by
  have hslots : ([] ++ slotsOf readers recordKind entries).Nodup :=
    slots_nodup readers jsonText lower recordKind fields now h hnodup
  have hread := @readEntries_fills F readers jsonText lower recordKind fields now entries h [] [] {}
    (filled_empty []) hslots
  have hfilled := ownOf_filled readers jsonText lower recordKind fields now h
  rw [List.append_nil] at hread
  rw [engineMatches, fromJson, hread]
  have hfinish : Reading.finish { own := ownOf readers recordKind entries } =
      some (bare (.node (ownOf readers recordKind entries) [] [])) := finish_bare hfilled.subsample [] []
  show ((Reading.finish { own := ownOf readers recordKind entries }).bind fun finished => _) = _
  rw [hfinish, Option.bind_some, bare, FilterNode.matches, ownSays]
  cases (ownOf readers recordKind entries).matchesOwn jsonText lower recordKind.table.schema fields now with
  | none => rfl
  | some held => cases held <;> rfl

theorem sharing_top {query edited : FilterQuery Json}
    (h : ∀ entry ∈ topOf query, Taken readers jsonText lower recordKind fields now entry)
    (hnodup : ((topOf query).map Prod.fst).Nodup)
    (h' : ∀ entry ∈ topOf edited, Taken readers jsonText lower recordKind fields now entry)
    (hnodup' : ((topOf edited).map Prod.fst).Nodup)
    (htogether : Together readers jsonText lower recordKind fields now query) (hundisturbed : Undisturbed query edited) :
    Sharing readers jsonText lower recordKind fields now (topOf query) (topOf edited) := by
  have houtside : ∀ entries : Object, Apart ((outside jointGroups entries).map Prod.fst) := by
    refine fun entries => apart_outside fun group hgroup kind hkind => ?_
    obtain ⟨entry, hentry, rfl⟩ := List.mem_map.mp hkind
    have hnone := List.all_eq_true.mp (List.mem_filter.mp hentry).2 group hgroup
    rwa [Bool.not_eq_true'] at hnone
  refine sharing_groups readers jsonText lower recordKind fields now jointGroups (fun _ hgroup => hgroup) (by decide)
    h hnodup h' hnodup' (fun group hgroup => ?_)
    (sharing_of_apart readers jsonText lower recordKind fields now
      (taken_filter readers jsonText lower recordKind fields now _ h) (nodup_filter _ hnodup)
      (taken_filter readers jsonText lower recordKind fields now _ h') (nodup_filter _ hnodup') (houtside _)
      (houtside _))
  have htaken := taken_filter readers jsonText lower recordKind fields now (fun entry => group.contains entry.1) h
  have hkeys := nodup_filter (fun entry => group.contains entry.1) hnodup
  rcases hundisturbed group hgroup with hsame | ⟨hapart, hapart'⟩
  · refine sharing_of_perm readers jsonText lower recordKind fields now htaken hkeys hgroup
      (fun entry hentry => (List.mem_filter.mp hentry).2) hsame ?_
    have hsome := htogether group hgroup
    rw [jointPart, engine_entries readers jsonText lower recordKind fields now htaken hkeys] at hsome
    exact hsome
  · exact sharing_of_apart readers jsonText lower recordKind fields now htaken hkeys
      (taken_filter readers jsonText lower recordKind fields now _ h') (nodup_filter _ hnodup') hapart hapart'

/-! ## 5. The whole query -/

/-- What the engine says of two queries: of the sentences they have in common, in whatever way these are read,
    and of the others one by one. -/
def Paired (query edited : FilterQuery Json) : Prop :=
  ∃ (common common' : Object) (rest rest' : List Sentence) (verdict : Bool), common.Perm common' ∧
    (sentencesOf (meaning readers jsonText lower recordKind fields now) query).Perm (entrySentences common ++ rest) ∧
    (sentencesOf (meaning readers jsonText lower recordKind fields now) edited).Perm
      (entrySentences common' ++ rest') ∧
    engineMatches readers jsonText lower recordKind fields now (compileQuery query) =
      some (verdict && rest.all (Sentence.truth (meaning readers jsonText lower recordKind fields now))) ∧
    engineMatches readers jsonText lower recordKind fields now (compileQuery edited) =
      some (verdict && rest'.all (Sentence.truth (meaning readers jsonText lower recordKind fields now)))

section Queries

variable {query edited : FilterQuery Json}

theorem Paired.symm (h : Paired readers jsonText lower recordKind fields now query edited) :
    Paired readers jsonText lower recordKind fields now edited query := by
  obtain ⟨common, common', rest, rest', verdict, hcommon, hquery, hedited, hverdict, hverdict'⟩ := h
  exact ⟨common', common, rest', rest, verdict, hcommon.symm, hedited, hquery, hverdict', hverdict⟩

theorem paired_of_undisturbed
    (hmeaningful : Meaningful readers jsonText lower recordKind fields now (conditionsOf query))
    (hmeaningful' : Meaningful readers jsonText lower recordKind fields now (conditionsOf edited))
    (htogether : Together readers jsonText lower recordKind fields now query) (hundisturbed : Undisturbed query edited) :
    Paired readers jsonText lower recordKind fields now query edited := by
  obtain ⟨h, hnodup, said, hperm, hverdict⟩ :=
    compileQuery_says readers jsonText lower recordKind fields now query hmeaningful
  obtain ⟨h', hnodup', said', hperm', hverdict'⟩ :=
    compileQuery_says readers jsonText lower recordKind fields now edited hmeaningful'
  obtain ⟨common, common', rest, rest', verdict, hcommon, htop, htop', hown, hown'⟩ :=
    sharing_top readers jsonText lower recordKind fields now h hnodup h' hnodup' htogether hundisturbed
  -- what is not in common is read one by one, at the top or as a term
  have hsplit : ∀ {top common rest : Object} {said all : List Sentence}, top.Perm (common ++ rest) →
      (entrySentences top ++ said).Perm all →
      all.Perm (entrySentences common ++ (entrySentences rest ++ said)) := by
    intro top common rest said all htop hall
    have hentries := htop.map (Sum.inl : String × Json → Sentence)
    rw [List.map_append] at hentries
    rw [← List.append_assoc]
    exact hall.symm.trans (hentries.append_right said)
  have hread : ∀ {rest : Object} {said : List Sentence},
      (verdict && eachSays readers jsonText lower recordKind fields now rest &&
        said.all (Sentence.truth (meaning readers jsonText lower recordKind fields now))) =
      (verdict && (entrySentences rest ++ said).all
        (Sentence.truth (meaning readers jsonText lower recordKind fields now))) := by
    intro rest said
    rw [List.all_append, entrySentences_all, Bool.and_assoc]
    rfl
  exact ⟨common, common', entrySentences rest ++ said, entrySentences rest' ++ said', verdict, hcommon,
    hsplit htop hperm, hsplit htop' hperm', by rw [hverdict _ hown, hread], by rw [hverdict' _ hown', hread]⟩

theorem Paired.of_perm (h : Paired readers jsonText lower recordKind fields now query edited)
    (hperm : (sentencesOf (meaning readers jsonText lower recordKind fields now) edited).Perm
      (sentencesOf (meaning readers jsonText lower recordKind fields now) query)) :
    engineMatches readers jsonText lower recordKind fields now (compileQuery edited) =
      engineMatches readers jsonText lower recordKind fields now (compileQuery query) := by
  obtain ⟨common, common', rest, rest', verdict, hcommon, hquery, hedited, hverdict, hverdict'⟩ := h
  have hboth := (hedited.symm.trans hperm).trans hquery
  have hshift := (hboth.trans ((hcommon.map Sum.inl).append_right rest))
  have hrest := (List.perm_append_left_iff _).mp hshift
  rw [hverdict, hverdict', hrest.all_eq]

/-- Some of the items in a block joined by `and`. -/
theorem Paired.of_regrouped {items : List (FilterItem Json)}
    (h : Paired readers jsonText lower recordKind fields now query edited) (hregrouped : Regrouped items query edited) :
    engineMatches readers jsonText lower recordKind fields now (compileQuery edited) =
      engineMatches readers jsonText lower recordKind fields now (compileQuery query) := by
  obtain ⟨fresh, others, hloose, hbound⟩ := hregrouped
  have hloose := sentencesOf_perm (meaning readers jsonText lower recordKind fields now) hloose
  have hbound := sentencesOf_perm (meaning readers jsonText lower recordKind fields now) hbound
  rw [sentencesOf_append] at hloose
  have hblock : sentencesOf (meaning readers jsonText lower recordKind fields now)
      (.block fresh .and_ items :: others) =
      (FilterItem.block fresh .and_ items).sentences (meaning readers jsonText lower recordKind fields now) ++
        sentencesOf (meaning readers jsonText lower recordKind fields now) others := rfl
  rw [hblock, FilterItem.sentences] at hbound
  cases hset : anySet items with
  | false =>
    -- nothing in the block is set
    rw [hset, if_neg Bool.false_ne_true, List.nil_append] at hbound
    rw [sentencesOf_unset _ hset, List.nil_append] at hloose
    exact h.of_perm readers jsonText lower recordKind fields now (hbound.trans hloose.symm)
  | true =>
    obtain ⟨common, common', rest, rest', verdict, hcommon, hquery, hedited, hverdict, hverdict'⟩ := h
    rw [hset, if_pos rfl, List.singleton_append, FilterItem.holds] at hbound
    -- the block is not one of the entries in common, so it is one of the others
    have hmem := (hbound.symm.trans hedited).mem_iff.mp List.mem_cons_self
    rcases List.mem_append.mp hmem with hmem | hmem
    · obtain ⟨entry, -, heq⟩ := List.mem_map.mp hmem
      cases heq
    · obtain ⟨front, back, hfront⟩ := List.append_of_mem hmem
      have hleft : rest'.Perm (_ :: (front ++ back)) := hfront ▸ List.perm_middle
      generalize front ++ back = left at hleft
      have hothers : (sentencesOf (meaning readers jsonText lower recordKind fields now) others).Perm
          (entrySentences common' ++ left) := by
        have hmoved := (hbound.symm.trans hedited).trans (hleft.append_left (entrySentences common'))
        exact (List.perm_cons _).mp (hmoved.trans List.perm_middle)
      have hrest : rest.Perm
          (sentencesOf (meaning readers jsonText lower recordKind fields now) items ++ left) := by
        have hmoved := (hquery.symm.trans hloose).trans (hothers.append_left _)
        rw [← List.append_assoc] at hmoved
        have hfront := hmoved.trans (List.perm_append_comm.append_right left)
        rw [List.append_assoc] at hfront
        exact (List.perm_append_left_iff _).mp (((hcommon.map Sum.inl).symm.append_right rest).trans hfront)
      rw [hverdict, hverdict', hrest.all_eq, hleft.all_eq, List.all_append, ← allHold_eq_all, List.all_cons]
      rfl

/-- **Moving, grouping by `and` and ungrouping leave what the engine says of a record**, when they leave the
    conditions that it reads together undisturbed. -/
theorem edited_matches (hedited : Edited query edited)
    (hmeaningful : Meaningful readers jsonText lower recordKind fields now (conditionsOf query))
    (htogether : Together readers jsonText lower recordKind fields now query)
    (hundisturbed : Undisturbed query edited) :
    engineMatches readers jsonText lower recordKind fields now (compileQuery edited) =
      engineMatches readers jsonText lower recordKind fields now (compileQuery query) := by
  have hpaired : (∀ condition ∈ conditionsOf edited, condition ∈ conditionsOf query) →
      Paired readers jsonText lower recordKind fields now query edited := fun hsame =>
    paired_of_undisturbed readers jsonText lower recordKind fields now hmeaningful
      (fun condition hmem => hmeaningful condition (hsame condition hmem)) htogether hundisturbed
  rcases hedited.cases with hperm | ⟨items, hgrouped⟩ | ⟨items, hungrouped⟩
  · have hsame := hpaired fun condition hmem => (conditionsOf_perm hperm).mem_iff.mp hmem
    exact hsame.of_perm readers jsonText lower recordKind fields now (sentencesOf_perm _ hperm)
  · have hsame := hpaired fun condition hmem => hgrouped.conditions.mem_iff.mp hmem
    exact hsame.of_regrouped readers jsonText lower recordKind fields now hgrouped
  · have hsame := hpaired fun condition hmem => hungrouped.conditions.mem_iff.mpr hmem
    exact ((hsame.symm readers jsonText lower recordKind fields now).of_regrouped readers jsonText lower recordKind
      fields now hungrouped).symm

end Queries

end Engine

/-! ## 6. A window of one hour -/

/-- The hour from midnight on, and what a serial connection sent in it. -/
def hourQuery : FilterQuery Json :=
  [.condition "a" "timespan" (.string "PT1H".toList), .condition "b" "after" (.string "2026-08-14 00:00:00".toList),
    .condition "c" "connection" (.string "serial".toList), .condition "d" "direction" (.string "send".toList)]

/-- Ten o'clock of that day. -/
def tenOClock : Int := daysOf ⟨2026, 8, 14⟩ * DAY + 10 * 3600 * 1000000

theorem hour_grouped :
    engineMatches plainReaders (fun _ => []) id .messages someMessage tenOClock
        (compileQuery (withGrouped hourQuery (fun id => id = "c" ∨ id = "d") .and_ "e")) =
      engineMatches plainReaders (fun _ => []) id .messages someMessage tenOClock (compileQuery hourQuery) := by
  refine edited_matches plainReaders (fun _ => []) id .messages someMessage tenOClock (.grouped _ _) ?_ ?_ ?_
  · have hconditions : conditionsOf hourQuery =
        [("timespan", .string "PT1H".toList), ("after", .string "2026-08-14 00:00:00".toList),
          ("connection", .string "serial".toList), ("direction", .string "send".toList)] := rfl
    have hspan : (meaningOf plainReaders (fun _ => []) id .messages someMessage tenOClock "timespan"
        (.string "PT1H".toList)).isSome = true := by decide
    have hafter : (meaningOf plainReaders (fun _ => []) id .messages someMessage tenOClock "after"
        (.string "2026-08-14 00:00:00".toList)).isSome = true := by decide
    have hconnection : (meaningOf plainReaders (fun _ => []) id .messages someMessage tenOClock "connection"
        (.string "serial".toList)).isSome = true := by decide
    have hsend : (meaningOf plainReaders (fun _ => []) id .messages someMessage tenOClock "direction"
        (.string "send".toList)).isSome = true := by decide
    rw [hconditions]
    intro condition hmem hvalue
    simp only [List.mem_cons, List.not_mem_nil, or_false] at hmem
    rcases hmem with rfl | rfl | rfl | rfl
    · exact ⟨by decide, hspan⟩
    · exact ⟨by decide, hafter⟩
    · exact ⟨by decide, hconnection⟩
    · exact ⟨by decide, hsend⟩
  · show ∀ group ∈ jointGroups, _ = true
    decide +kernel
  · intro group hgroup
    simp only [jointGroups, List.mem_cons, List.not_mem_nil, or_false] at hgroup
    rcases hgroup with rfl | rfl | rfl
    · exact .inl (List.Perm.refl _)
    · exact .inl (List.Perm.refl _)
    · exact .inl (List.Perm.refl _)

/-- A message of half past midnight. -/
def earlyMessage : Fields := fun key =>
  if key = "timestamp" then some ⟨"\"2026-08-14T00:30:00Z\"".toList, .string "2026-08-14T00:30:00Z".toList⟩
  else someMessage key

/-- At the root the timespan is anchored at `after`; in the block each stands alone, and the timespan ends now. -/
theorem hour_anchor_grouped :
    engineMatches plainReaders (fun _ => []) id .messages earlyMessage tenOClock (compileQuery hourQuery) =
        some true ∧
      engineMatches plainReaders (fun _ => []) id .messages earlyMessage tenOClock
        (compileQuery (withGrouped hourQuery (fun id => id = "a" ∨ id = "b") .and_ "e")) = some false := by
  decide +kernel

end Ceres.Console.Query
