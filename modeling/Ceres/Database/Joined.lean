/-
  File:      Ceres/Database/Joined.lean
  Subject:   CONDITIONS THAT STAND IN ONE NODE, AND THE SAME CONDITIONS ONE BY ONE.

  A mapping with several keys is one node, and each key fills a slot of it. The matcher reads most slots on
  their own, but a timespan with the instant it is anchored at, and the two bounds of a clock window
  together.

  * `Slot`, `Conditions.used`, `Delta` -- the slots, and what one key writes into an empty node;
  * `Conditions.join` -- the conditions of two nodes in one; **`applyRole_join`** -- a key whose slot is free
    writes the same whatever else the node has;
  * `Beside`, `Clear` -- no slot of one node that is read together with one of another;
  * **`matchesOwn_join`** -- then a record satisfies two nodes' conditions in one exactly when it satisfies
    each's;
  * `Conditions.join_comm` -- a key that adds to no list can be written before or behind any other.
-/
import Ceres.Database.Wire

namespace Ceres.Database

open Ceres.Library
open Ceres.Data

set_option linter.unusedSectionVars false

/-! ## 1. Slots -/

/-- A place for the values of one key in a node's conditions. -/
inductive Slot where
  | equality (key : String)
  | operation (key : String) (kind : OperationKind)
  | address
  | window (operator : WindowOp)
  | clock (operator : ClockOp)
  | bound (operator : BoundOp)
  deriving DecidableEq, Repr

/-- The slot a key fills; a key that fills none has no slot. -/
def KeyRole.slot : KeyRole → Option Slot
  | .equality field => some (if field.family = .address then .address else .equality field.key)
  | .operation field kind => some (.operation field.key kind)
  | .window operator => some (.window operator)
  | .clock operator => some (.clock operator)
  | .bound operator => some (.bound operator)
  | _ => none

/-- Whether a node has values in a slot. -/
def Conditions.used (own : Conditions) : Slot → Bool
  | .equality key => own.equalities.any fun entry => entry.1 = key
  | .operation key kind => own.operations.any fun held => held.field.key = key ∧ held.kind = kind
  | .address => own.address.isSome
  | .window .after => own.after.isSome
  | .window .before => own.before.isSome
  | .window .timespan => own.timespan.isSome
  | .window .maxAge => own.maxAge.isSome
  | .window .minAge => own.minAge.isSome
  | .clock .afterHour => own.afterHour.isSome
  | .clock .beforeHour => own.beforeHour.isSome
  | .clock .afterMinute => own.afterMinute.isSome
  | .clock .beforeMinute => own.beforeMinute.isSome
  | .bound .minimum => own.minLevel.isSome
  | .bound .maximum => own.maxLevel.isSome

/-- What one key writes into a node that has nothing. An empty list of values fills no slot, and matches
    nothing. -/
inductive Delta : Slot → Conditions → Prop where
  | impossible (slot : Slot) : Delta slot { impossible := true }
  | equality (key : String) (values : Values) : Delta (.equality key) { equalities := [(key, values)] }
  | operation (held : OperationFilter) : Delta (.operation held.field.key held.kind) { operations := [held] }
  | address (selector : AddressSelector) : Delta .address { address := some selector }
  | after (t : Int) : Delta (.window .after) { after := some t }
  | before (t : Int) : Delta (.window .before) { before := some t }
  | timespan (span : Int) : Delta (.window .timespan) { timespan := some span }
  | maxAge (age : Int) : Delta (.window .maxAge) { maxAge := some age }
  | minAge (age : Int) : Delta (.window .minAge) { minAge := some age }
  | afterHour (n : Nat) : Delta (.clock .afterHour) { afterHour := some n }
  | beforeHour (n : Nat) : Delta (.clock .beforeHour) { beforeHour := some n }
  | afterMinute (n : Nat) : Delta (.clock .afterMinute) { afterMinute := some n }
  | beforeMinute (n : Nat) : Delta (.clock .beforeMinute) { beforeMinute := some n }
  | minimum (n : Nat) : Delta (.bound .minimum) { minLevel := some n }
  | maximum (n : Nat) : Delta (.bound .maximum) { maxLevel := some n }

theorem Delta.used {slot other : Slot} {own : Conditions} (h : Delta slot own) (hused : own.used other = true) :
    other = slot := by
  cases h with
  | impossible =>
    cases other with
    | window operator => cases operator <;> cases hused
    | clock operator => cases operator <;> cases hused
    | bound operator => cases operator <;> cases hused
    | _ => cases hused
  | equality key values =>
    cases other with
    | equality key' =>
      simp only [Conditions.used, List.any_cons, List.any_nil, Bool.or_false, decide_eq_true_eq] at hused
      rw [hused]
    | window operator => cases operator <;> cases hused
    | clock operator => cases operator <;> cases hused
    | bound operator => cases operator <;> cases hused
    | _ => cases hused
  | operation held =>
    cases other with
    | operation key' kind' =>
      simp only [Conditions.used, List.any_cons, List.any_nil, Bool.or_false, decide_eq_true_eq] at hused
      rw [hused.1, hused.2]
    | window operator => cases operator <;> cases hused
    | clock operator => cases operator <;> cases hused
    | bound operator => cases operator <;> cases hused
    | _ => cases hused
  | _ =>
    cases other with
    | window operator => cases operator <;> first | rfl | cases hused
    | clock operator => cases operator <;> first | rfl | cases hused
    | bound operator => cases operator <;> first | rfl | cases hused
    | address => first | rfl | cases hused
    | _ => cases hused

/-! ## 2. Two nodes' conditions in one -/

/-- The conditions of two nodes in one. -/
def Conditions.join (own more : Conditions) : Conditions where
  equalities := own.equalities ++ more.equalities
  operations := own.operations ++ more.operations
  address := own.address.or more.address
  root := own.root.or more.root
  after := own.after.or more.after
  before := own.before.or more.before
  timespan := own.timespan.or more.timespan
  maxAge := own.maxAge.or more.maxAge
  minAge := own.minAge.or more.minAge
  subsampleEvery := own.subsampleEvery.or more.subsampleEvery
  subsample := own.subsample.or more.subsample
  subsampleSelect := own.subsampleSelect.or more.subsampleSelect
  afterHour := own.afterHour.or more.afterHour
  beforeHour := own.beforeHour.or more.beforeHour
  afterMinute := own.afterMinute.or more.afterMinute
  beforeMinute := own.beforeMinute.or more.beforeMinute
  minLevel := own.minLevel.or more.minLevel
  maxLevel := own.maxLevel.or more.maxLevel
  computed := own.computed ++ more.computed
  impossible := own.impossible || more.impossible

@[simp] theorem Conditions.join_empty (own : Conditions) : own.join {} = own := by
  cases own
  simp [Conditions.join]

@[simp] theorem Conditions.empty_join (own : Conditions) : Conditions.join {} own = own := by
  cases own
  simp [Conditions.join]

theorem Conditions.join_assoc (own more rest : Conditions) :
    (own.join more).join rest = own.join (more.join rest) := by
  simp only [Conditions.join, Option.or_assoc, List.append_assoc, Bool.or_assoc]

theorem used_join (own more : Conditions) (slot : Slot) :
    (own.join more).used slot = (own.used slot || more.used slot) := by
  cases slot with
  | equality key => exact List.any_append
  | operation key kind => exact List.any_append
  | address => exact Option.isSome_or
  | window operator => cases operator <;> exact Option.isSome_or
  | clock operator => cases operator <;> exact Option.isSome_or
  | bound operator => cases operator <;> exact Option.isSome_or

theorem join_impossible (own more : Conditions) :
    { own.join more with impossible := true } = own.join { more with impossible := true } := by
  simp [Conditions.join]

/-! ## 3. One key next to others -/

section Keys

variable {F : Type} (readers : ValueReaders F)

theorem pushValues_append {key : String} (parsed : Values) (ys : List (String × Values)) :
    ∀ {xs : List (String × Values)}, (xs.any fun entry => entry.1 = key) = false →
      pushValues key parsed (xs ++ ys) = (pushValues key parsed ys).map (xs ++ ·)
  | [], _ => by
      show pushValues key parsed ys = _
      cases pushValues key parsed ys <;> rfl
  | entry :: xs, h => by
      simp only [List.any_cons, Bool.or_eq_false_iff, decide_eq_false_iff_not] at h
      rw [List.cons_append, pushValues, if_neg h.1, pushValues_append parsed ys (by simpa using h.2), Option.map_map]
      rfl

variable {field : FilterField}

theorem pushFilter_append {kind : OperationKind} (parsed : Values)
    (ys : List OperationFilter) : ∀ {xs : List OperationFilter},
      (xs.any fun held => held.field.key = field.key ∧ held.kind = kind) = false →
      pushFilter field kind parsed (xs ++ ys) = (pushFilter field kind parsed ys).map (xs ++ ·)
  | [], _ => by
      show pushFilter field kind parsed ys = _
      cases pushFilter field kind parsed ys <;> rfl
  | held :: xs, h => by
      simp only [List.any_cons, Bool.or_eq_false_iff, decide_eq_false_iff_not] at h
      rw [List.cons_append, pushFilter, if_neg h.1, pushFilter_append parsed ys (by simpa using h.2), Option.map_map]
      rfl

variable {own : Conditions}

theorem pushEquality_join
    (hfree : own.used (if field.family = .address then .address else .equality field.key) = false)
    (more : Conditions) (text : Text) :
    pushEquality readers field (own.join more) text = (pushEquality readers field more text).map own.join := by
  unfold pushEquality
  by_cases hfamily : field.family = .address
  · rw [if_pos hfamily] at hfree
    have hnone : own.address = none := Option.isSome_eq_false_iff.mp hfree |> Option.isNone_iff_eq_none.mp
    have haddress : (own.join more).address = more.address := by
      rw [Conditions.join, hnone, Option.none_or]
    rw [if_pos hfamily, if_pos hfamily, haddress]
    cases AddressSelector.push more.address text with
    | error => rfl
    | ok selector =>
      simp only [Option.map_some, Conditions.join, hnone, Option.none_or]
  · rw [if_neg hfamily] at hfree
    rw [if_neg hfamily, if_neg hfamily]
    cases parseValues readers field text with
    | none => rfl
    | some parsed =>
      have happend := pushValues_append parsed more.equalities hfree
      have hequalities : (own.join more).equalities = own.equalities ++ more.equalities := rfl
      rw [Option.bind_some, Option.bind_some, hequalities, happend, Option.map_map, Option.map_map]
      rfl

theorem pushOperation_join {kind : OperationKind} (hfree : own.used (.operation field.key kind) = false)
    (more : Conditions) (text : Text) :
    pushOperation field kind (own.join more) text = (pushOperation field kind more text).map own.join := by
  have happend := pushFilter_append (operationValues field text) more.operations hfree
  have hoperations : (own.join more).operations = own.operations ++ more.operations := rfl
  rw [pushOperation, pushOperation, hoperations, happend, Option.map_map, Option.map_map]
  rfl

variable {push : Conditions → Text → Option Conditions}

theorem pushAll_join (hpush : ∀ more text, push (own.join more) text = (push more text).map own.join) :
    ∀ (texts : List Text) (more : Conditions),
      pushAll push (own.join more) texts = (pushAll push more texts).map own.join
  | [], more => rfl
  | text :: texts, more => by
      rw [pushAll, pushAll, hpush]
      cases push more text with
      | none => rfl
      | some next => exact pushAll_join hpush texts next

theorem pushAll_start_join (hpush : ∀ more text, push (own.join more) text = (push more text).map own.join)
    (texts : List Text) (more : Conditions) :
    pushAll push (if texts.isEmpty then { own.join more with impossible := true } else own.join more) texts =
      (pushAll push (if texts.isEmpty then { more with impossible := true } else more) texts).map own.join := by
  rw [← pushAll_join hpush]
  split
  · rw [join_impossible]
  · rfl

theorem free_none {α : Type} {slot : Option α} (hfree : slot.isSome = false) : slot = none :=
  Option.isNone_iff_eq_none.mp (Option.isSome_eq_false_iff.mp hfree)

theorem bind_map_join {α : Type} {source : Option α} {f g : α → Option Conditions}
    (h : ∀ read, f read = (g read).map own.join) : source.bind f = (source.bind g).map own.join := by
  cases source with
  | none => rfl
  | some read => exact h read

/-- **A slot that is set once** is set the same next to conditions that leave it free. -/
theorem setOnce_join {α : Type} {held : Option α} (hfree : held.isSome = false)
    {slot : Option α} {value : α} {put put' : Option α → Conditions}
    (hput : held = none → ∀ slot, put slot = own.join (put' slot)) :
    (setOnce (held.or slot) value).map put = ((setOnce slot value).map put').map own.join := by
  obtain rfl := free_none hfree
  rw [Option.none_or, Option.map_map, Function.comp_def, funext (hput rfl)]

theorem applyWindow_join {operator : WindowOp} (hfree : own.used (.window operator) = false)
    (more : Conditions) (text : Text) :
    applyWindow readers.speedate readers.cleaned readers.floats readers.timestamp (own.join more) operator text =
      (applyWindow readers.speedate readers.cleaned readers.floats readers.timestamp more operator text).map
        own.join := by
  cases operator <;> refine bind_map_join fun read => ?_
  case timespan =>
    split
    · rfl
    · exact setOnce_join hfree fun hnone slot => by simp only [Conditions.join, hnone, Option.none_or]
  all_goals exact setOnce_join hfree fun hnone slot => by simp only [Conditions.join, hnone, Option.none_or]

theorem applyClock_join {operator : ClockOp} (hfree : own.used (.clock operator) = false) (more : Conditions)
    (text : Text) :
    applyClock readers (own.join more) operator text = (applyClock readers more operator text).map own.join := by
  cases operator <;> refine bind_map_join fun bound => ?_
  all_goals exact setOnce_join hfree fun hnone slot => by simp only [Conditions.join, hnone, Option.none_or]

theorem applyBound_join {operator : BoundOp} (hfree : own.used (.bound operator) = false) (more : Conditions)
    (text : Text) : applyBound (own.join more) operator text = (applyBound more operator text).map own.join := by
  cases operator <;> refine bind_map_join fun position => ?_
  all_goals exact setOnce_join hfree fun hnone slot => by simp only [Conditions.join, hnone, Option.none_or]

/-- **A key whose slot is free writes the same next to what is there.** -/
theorem applyRole_join {role : KeyRole} {slot : Slot} (hslot : role.slot = some slot)
    (hfree : own.used slot = false) (more : Conditions) (value : Json) :
    applyRole readers (own.join more) role value = (applyRole readers more role value).map own.join := by
  cases role with
  | equality field =>
    cases hslot
    have hpush := pushEquality_join readers hfree
    simp only [applyRole]
    split
    · exact hpush more _
    · refine bind_map_join fun texts => ?_
      split
      · rfl
      · exact pushAll_start_join hpush texts more
  | operation field kind =>
    cases hslot
    exact bind_map_join fun texts => pushAll_start_join (pushOperation_join hfree) texts more
  | window operator =>
    cases hslot
    exact bind_map_join fun text => applyWindow_join readers hfree more text
  | clock operator =>
    cases hslot
    exact bind_map_join fun text => applyClock_join readers hfree more text
  | bound operator =>
    cases hslot
    exact bind_map_join fun text => applyBound_join hfree more text
  | _ => cases hslot

/-! ## 4. One key alone -/

/-- The values of one key from nothing: none at all match nothing, and others fill its slot. -/
theorem pushAll_delta {slot : Slot}
    (hstart : ∀ text next, push {} text = some next → Delta slot next ∧ next.used slot = true)
    (hpush : ∀ own text next, Delta slot own ∧ own.used slot = true → push own text = some next →
      Delta slot next ∧ next.used slot = true) (texts : List Text) {next : Conditions}
    (h : pushAll push (if texts.isEmpty then { ({} : Conditions) with impossible := true } else {}) texts =
      some next) : Delta slot next := by
  cases texts with
  | nil =>
    cases h
    exact .impossible slot
  | cons text texts =>
    obtain ⟨first, hfirst, hrest⟩ := Option.bind_eq_some_iff.mp h
    exact (pushAll_keeps hpush texts (hstart text first hfirst) hrest).1

variable {text : Text}

theorem pushEquality_delta {own next : Conditions}
    (hown : own = {} ∨ Delta (if field.family = .address then .address else .equality field.key) own ∧
      own.used (if field.family = .address then .address else .equality field.key) = true)
    (h : pushEquality readers field own text = some next) :
    Delta (if field.family = .address then .address else .equality field.key) next ∧
      next.used (if field.family = .address then .address else .equality field.key) = true := by
  unfold pushEquality at h
  by_cases hfamily : field.family = .address
  · simp only [if_pos hfamily] at hown h ⊢
    have hshape : ∀ selector, { own with address := some selector } = { address := some selector } := by
      rcases hown with rfl | ⟨hdelta, hused⟩
      · exact fun _ => rfl
      · cases hdelta with
        | impossible => cases hused
        | address => exact fun _ => rfl
    split at h
    · rename_i selector _
      cases h
      rw [hshape]
      exact ⟨.address selector, rfl⟩
    · cases h
  · simp only [if_neg hfamily] at hown h ⊢
    obtain ⟨parsed, -, h⟩ := Option.bind_eq_some_iff.mp h
    obtain ⟨equalities, hpush, rfl⟩ := Option.map_eq_some_iff.mp h
    have hone : ∃ values, { own with equalities } = { equalities := [(field.key, values)] } := by
      rcases hown with rfl | ⟨hdelta, hused⟩
      · cases hpush
        exact ⟨parsed, rfl⟩
      · cases hdelta with
        | impossible => cases hused
        | equality key values =>
          rw [pushValues, if_pos rfl] at hpush
          obtain ⟨values', -, rfl⟩ := Option.map_eq_some_iff.mp hpush
          exact ⟨values', rfl⟩
    obtain ⟨values, hvalues⟩ := hone
    rw [hvalues]
    exact ⟨.equality field.key values, by simp [Conditions.used]⟩

theorem pushOperation_delta {kind : OperationKind} {own next : Conditions}
    (hown : own = {} ∨ Delta (.operation field.key kind) own ∧ own.used (.operation field.key kind) = true)
    (h : pushOperation field kind own text = some next) :
    Delta (.operation field.key kind) next ∧ next.used (.operation field.key kind) = true := by
  obtain ⟨operations, hpush, rfl⟩ := Option.map_eq_some_iff.mp h
  have hone : ∃ held : OperationFilter, held.field.key = field.key ∧ held.kind = kind ∧
      { own with operations } = { operations := [held] } := by
    rcases hown with rfl | ⟨hdelta, hused⟩
    · cases hpush
      exact ⟨_, rfl, rfl, rfl⟩
    · generalize hslot : Slot.operation field.key kind = slot at hdelta hused
      cases hdelta with
      | impossible => rw [← hslot] at hused; cases hused
      | operation held =>
        injection hslot with hkey hkind
        rw [pushFilter, if_pos ⟨hkey.symm, hkind.symm⟩] at hpush
        obtain ⟨values, -, rfl⟩ := Option.map_eq_some_iff.mp hpush
        exact ⟨{ held with values }, hkey.symm, hkind.symm, rfl⟩
      | _ => cases hslot
  obtain ⟨held, hkey, hkind, hshape⟩ := hone
  rw [hshape, ← hkey, ← hkind]
  exact ⟨.operation held, by simp [Conditions.used]⟩

theorem applyWindow_delta {operator : WindowOp}
    (h : applyWindow readers.speedate readers.cleaned readers.floats readers.timestamp {} operator text = some own) :
    Delta (.window operator) own := by
  cases operator with
  | after =>
    obtain ⟨t, -, h⟩ := Option.bind_eq_some_iff.mp h
    cases h
    exact .after t
  | before =>
    obtain ⟨t, -, h⟩ := Option.bind_eq_some_iff.mp h
    cases h
    exact .before t
  | timespan =>
    obtain ⟨span, -, h⟩ := Option.bind_eq_some_iff.mp h
    split at h
    · cases h
    · cases h
      exact .timespan span
  | maxAge =>
    obtain ⟨age, -, h⟩ := Option.bind_eq_some_iff.mp h
    cases h
    exact .maxAge age
  | minAge =>
    obtain ⟨age, -, h⟩ := Option.bind_eq_some_iff.mp h
    cases h
    exact .minAge age

theorem applyClock_delta {operator : ClockOp}
    (h : applyClock readers {} operator text = some own) : Delta (.clock operator) own := by
  cases operator <;>
    · obtain ⟨n, -, h⟩ := Option.bind_eq_some_iff.mp h
      cases h
      constructor

theorem applyBound_delta {operator : BoundOp}
    (h : applyBound {} operator text = some own) : Delta (.bound operator) own := by
  cases operator <;>
    · obtain ⟨n, -, h⟩ := Option.bind_eq_some_iff.mp h
      cases h
      constructor

/-- **One key alone fills its slot and no other.** -/
theorem applyRole_delta {role : KeyRole} {slot : Slot} (hslot : role.slot = some slot) {value : Json}
    (h : applyRole readers {} role value = some own) : Delta slot own := by
  cases role with
  | equality field =>
    cases hslot
    simp only [applyRole] at h
    split at h
    · exact (pushEquality_delta readers (.inl rfl) h).1
    · obtain ⟨texts, -, h⟩ := Option.bind_eq_some_iff.mp h
      split at h
      · cases h
      · exact pushAll_delta (fun _ _ hpush => pushEquality_delta readers (.inl rfl) hpush)
          (fun _ _ _ hown hpush => pushEquality_delta readers (.inr hown) hpush) texts h
  | operation field kind =>
    cases hslot
    obtain ⟨texts, -, h⟩ := Option.bind_eq_some_iff.mp h
    exact pushAll_delta (fun _ _ hpush => pushOperation_delta (.inl rfl) hpush)
      (fun _ _ _ hown hpush => pushOperation_delta (.inr hown) hpush) texts h
  | window operator =>
    cases hslot
    obtain ⟨text, -, h⟩ := Option.bind_eq_some_iff.mp h
    exact applyWindow_delta readers h
  | clock operator =>
    cases hslot
    obtain ⟨text, -, h⟩ := Option.bind_eq_some_iff.mp h
    exact applyClock_delta readers h
  | bound operator =>
    cases hslot
    obtain ⟨text, -, h⟩ := Option.bind_eq_some_iff.mp h
    exact applyBound_delta h
  | _ => cases hslot

end Keys

/-! ## 5. What a record satisfies -/

/-- Where two answers are known, the joined one is their conjunction. -/
def Both (first second joined : Option Bool) : Prop :=
  ∀ p q, first = some p → second = some q → joined = some (p && q)

theorem both_some (p q : Bool) : Both (some p) (some q) (some (p && q)) := by
  intro p' q' hp hq
  cases hp
  cases hq
  rfl

variable {first second joined : Option Bool}

/-- Leaving early with `false`, on either side. -/
theorem both_exit (h : Both first second joined) (p q : Bool) :
    Both (if p = true then some false else first) (if q = true then some false else second)
      (if (p || q) = true then some false else joined) := by
  intro x y hx hy
  cases p with
  | true =>
    cases hx
    rfl
  | false =>
    cases q with
    | true =>
      cases hy
      rw [Bool.and_false]
      rfl
    | false => exact h x y hx hy

theorem both_exit_first (h : Both first second joined) (p : Bool) :
    Both (if p = true then some false else first) second (if p = true then some false else joined) := by
  have hexit := both_exit h p false
  rwa [Bool.or_false] at hexit

theorem both_swap (h : Both first second joined) : Both second first joined := by
  intro p q hp hq
  rw [h q p hq hp, Bool.and_comm]

theorem both_allM {α : Type} {first second joined : α → Option Bool} : ∀ (entries : List α),
    (∀ entry ∈ entries, Both (first entry) (second entry) (joined entry)) →
    Both (entries.allM first) (entries.allM second) (entries.allM joined)
  | [], _ => both_some true true
  | entry :: entries, h => by
      intro x y hx hy
      obtain ⟨hentry, hentries⟩ := List.forall_mem_cons.mp h
      rw [List.allM] at hx hy ⊢
      obtain ⟨p, hp, hx⟩ := Option.bind_eq_some_iff.mp hx
      obtain ⟨q, hq, hy⟩ := Option.bind_eq_some_iff.mp hy
      have hjoined := hentry p q hp hq
      simp only [hjoined, Option.bind_eq_bind, Option.bind_some]
      cases p with
      | false =>
        cases hx
        rfl
      | true =>
        cases q with
        | false =>
          cases hy
          show (some false : Option Bool) = some (x && false)
          rw [Bool.and_false]
        | true => exact both_allM entries hentries x y hx hy

/-- The slots of two nodes that can stand in one: none is used by both, and none of one is read together with
    one of the other. -/
structure Beside (own more : Conditions) : Prop where
  slots : ∀ slot, ¬ (own.used slot = true ∧ more.used slot = true)
  ages : (own.join more).maxAge = none ∧ (own.join more).minAge = none
  root : (own.join more).root = none
  span : (own.timespan.isSome = true → more.after = none ∧ more.before = none) ∧
    (more.timespan.isSome = true → own.after = none ∧ own.before = none)
  hours : (own.afterHour = none ∨ more.beforeHour = none) ∧ (own.beforeHour = none ∨ more.afterHour = none)
  minutes : (own.afterMinute = none ∨ more.beforeMinute = none) ∧
    (own.beforeMinute = none ∨ more.afterMinute = none)

/-- Of a slot that only one of two nodes uses, one has nothing. -/
theorem Beside.one {own more : Conditions} (h : Beside own more) (slot : Slot) :
    own.used slot = false ∨ more.used slot = false := by
  have hslot := h.slots slot
  cases hown : own.used slot with
  | false => exact .inl rfl
  | true => exact .inr (Bool.eq_false_iff.mpr fun hmore => hslot ⟨hown, hmore⟩)

theorem all_or {α : Type} {first second : Option α} (h : first = none ∨ second = none) (P : α → Bool) :
    (first.or second).all P = (first.all P && second.all P) := by
  rcases h with rfl | rfl
  · rw [Option.none_or, Option.all_none, Bool.true_and]
  · rw [Option.or_none, Option.all_none, Bool.and_true]

theorem any_or {α : Type} {first second : Option α} (h : first = none ∨ second = none) (P : α → Bool) :
    (first.or second).any P = (first.any P || second.any P) := by
  rcases h with rfl | rfl
  · rw [Option.none_or, Option.any_none, Bool.false_or]
  · rw [Option.or_none, Option.any_none, Bool.or_false]

theorem find?_none_of_any {α : Type} {entries : List α} {P : α → Bool} (h : entries.any P = false) :
    entries.find? P = none := by
  rw [List.find?_eq_none]
  intro entry hmem hP
  exact Bool.false_ne_true (h.symm.trans (List.any_eq_true.mpr ⟨entry, hmem, hP⟩))

section Matches

variable (jsonText : Json → Text) (lower : Text → Text) (fields : Fields) (now : Int)
variable {own more : Conditions} (h : Beside own more)

include h

theorem valuesOf_join (field : FilterField) (P : Values → Bool) :
    ((own.join more).valuesOf field).all P = ((own.valuesOf field).all P && (more.valuesOf field).all P) := by
  have hone : own.valuesOf field = none ∨ more.valuesOf field = none :=
    (h.one (.equality field.key)).imp
      (fun hfree => by rw [Conditions.valuesOf, find?_none_of_any hfree]; rfl)
      (fun hfree => by rw [Conditions.valuesOf, find?_none_of_any hfree]; rfl)
  rw [← all_or hone]
  have hfind : (own.join more).valuesOf field = (own.valuesOf field).or (more.valuesOf field) := by
    have hjoin : (own.join more).equalities = own.equalities ++ more.equalities := rfl
    rw [Conditions.valuesOf, hjoin, List.find?_append, Option.map_or]
    rfl
  rw [hfind]

theorem operationsHeld_join (field : FilterField) (raw : Option RawValue) :
    (own.join more).operationsHeld lower field raw =
      (own.operationsHeld lower field raw && more.operationsHeld lower field raw) := by
  have hone : ∀ operation : FieldOperation,
      ((own.join more).operationOf field operation).all (operationHeld lower field operation raw) =
        ((own.operationOf field operation).all (operationHeld lower field operation raw) &&
          (more.operationOf field operation).all (operationHeld lower field operation raw)) := by
    intro operation
    have hone : own.operationOf field operation = none ∨ more.operationOf field operation = none :=
      (h.one (.operation field.key operation.kind)).imp (fun hfree => find?_none_of_any hfree)
        (fun hfree => find?_none_of_any hfree)
    have hfind : (own.join more).operationOf field operation =
        (own.operationOf field operation).or (more.operationOf field operation) := by
      have hjoin : (own.join more).operations = own.operations ++ more.operations := rfl
      rw [Conditions.operationOf, hjoin, List.find?_append]
      rfl
    rw [hfind, all_or hone]
  rw [Bool.eq_iff_iff, Bool.and_eq_true]
  simp only [Conditions.operationsHeld, List.all_eq_true, hone, Bool.and_eq_true]
  exact forall₂_and

theorem slot_join {α : Type} {first second : Option α} (slot : Slot) (hfirst : own.used slot = first.isSome)
    (hsecond : more.used slot = second.isSome) : first = none ∨ second = none :=
  (h.one slot).imp (fun hfree => free_none (hfirst.symm.trans hfree))
    (fun hfree => free_none (hsecond.symm.trans hfree))

theorem levelHeld_join (text : Option Text) :
    (own.join more).levelHeld text = (own.levelHeld text && more.levelHeld text) := by
  have hmin := slot_join h (.bound .minimum) rfl rfl
  have hmax := slot_join h (.bound .maximum) rfl rfl
  have hjoin : (own.join more).minLevel = own.minLevel.or more.minLevel ∧
      (own.join more).maxLevel = own.maxLevel.or more.maxLevel := ⟨rfl, rfl⟩
  simp only [Conditions.levelHeld, hjoin.1, hjoin.2, any_or hmin, any_or hmax, Bool.not_or]
  ac_rfl

end Matches

/-- The bounds of a clock window stand in one of two nodes. -/
theorem clockHeld_join (span value : Nat) {after before after' before' : Option Nat}
    (hone : (after = none ∨ before' = none) ∧ (before = none ∨ after' = none)) (hafter : after = none ∨ after' = none)
    (hbefore : before = none ∨ before' = none) : clockHeld (after.or after') (before.or before') span value =
      (clockHeld after before span value && clockHeld after' before' span value) := by
  have hnothing : ∀ v, clockHeld none none span v = true := fun _ => rfl
  cases after with
  | none =>
    cases before with
    | none => rw [Option.none_or, Option.none_or, hnothing, Bool.true_and]
    | some bound =>
      rw [hone.2.resolve_left (Option.some_ne_none bound), hbefore.resolve_left (Option.some_ne_none bound),
        Option.or_none, Option.or_none, hnothing, Bool.and_true]
  | some bound =>
    rw [hone.1.resolve_left (Option.some_ne_none bound), hafter.resolve_left (Option.some_ne_none bound),
      Option.or_none, Option.or_none, hnothing, Bool.and_true]

theorem needsTimestamp_join (own more : Conditions) :
    (own.join more).needsTimestamp = (own.needsTimestamp || more.needsTimestamp) := by
  simp only [Conditions.needsTimestamp, Conditions.join, Option.isSome_or]
  ac_rfl

def Conditions.spanned (own : Conditions) (stamp now : Int) (clock : Bool) : Option Bool :=
  (own.checkedTimespanBounds now).bind fun span =>
    if (span.1.any fun start => stamp < start) = true then some false
    else if (span.2.any fun end_ => end_ ≤ stamp) = true then some false
    else some clock

theorem timestampMatches_plain {own : Conditions} (hmax : own.maxAge = none) (hmin : own.minAge = none)
    (stamp now : Int) : own.timestampMatches stamp now =
      if (own.after.any fun after => stamp < after) = true then some false
      else if (own.before.any fun before => before ≤ stamp) = true then some false
      else own.spanned stamp now (clockHeld own.afterHour own.beforeHour 24 (hourOf stamp) &&
        clockHeld own.afterMinute own.beforeMinute 60 (minuteOf stamp)) := by
  unfold Conditions.timestampMatches Conditions.spanned
  rw [hmax, hmin]
  rfl

theorem spanned_none {own : Conditions} (h : own.timespan = none) (stamp now : Int) (clock : Bool) :
    own.spanned stamp now clock = some clock := by
  unfold Conditions.spanned Conditions.checkedTimespanBounds
  rw [h]
  rfl

theorem both_spanned_none (own : Conditions) (stamp now : Int) (clock other : Bool) :
    Both (own.spanned stamp now clock) (some other) (own.spanned stamp now (clock && other)) := by
  unfold Conditions.spanned
  cases own.checkedTimespanBounds now with
  | none => exact fun _ _ h => by cases h
  | some span => exact both_exit_first (both_exit_first (both_some clock other) _) _

theorem spanned_congr {own own' : Conditions} (hspan : own.timespan = own'.timespan) (hafter : own.after = own'.after)
    (hbefore : own.before = own'.before) (stamp now : Int) (clock : Bool) :
    own.spanned stamp now clock = own'.spanned stamp now clock := by
  unfold Conditions.spanned Conditions.checkedTimespanBounds
  rw [hspan, hafter, hbefore]

theorem both_spanned {own more : Conditions} (h : Beside own more) (stamp now : Int) (clock other : Bool) :
    Both (own.spanned stamp now clock) (more.spanned stamp now other)
      ((own.join more).spanned stamp now (clock && other)) := by
  have hjoin : (own.join more).timespan = own.timespan.or more.timespan ∧
      (own.join more).after = own.after.or more.after ∧ (own.join more).before = own.before.or more.before :=
    ⟨rfl, rfl, rfl⟩
  have hone := slot_join h (.window .timespan) rfl rfl
  by_cases hset : own.timespan.isSome = true
  · obtain ⟨hafter, hbefore⟩ := h.span.1 hset
    have hmore : more.timespan = none := hone.resolve_left fun hnone => by
      rw [hnone] at hset
      cases hset
    have hsame : ∀ held, (own.join more).spanned stamp now held = own.spanned stamp now held := fun held =>
      spanned_congr (by rw [hjoin.1, hmore, Option.or_none]) (by rw [hjoin.2.1, hafter, Option.or_none])
        (by rw [hjoin.2.2, hbefore, Option.or_none]) stamp now held
    rw [spanned_none hmore, hsame]
    exact both_spanned_none own stamp now clock other
  · have hown : own.timespan = none := free_none (Bool.not_eq_true _ ▸ hset)
    by_cases hset' : more.timespan.isSome = true
    · obtain ⟨hafter, hbefore⟩ := h.span.2 hset'
      have hsame : ∀ held, (own.join more).spanned stamp now held = more.spanned stamp now held := fun held =>
        spanned_congr (by rw [hjoin.1, hown, Option.none_or]) (by rw [hjoin.2.1, hafter, Option.none_or])
          (by rw [hjoin.2.2, hbefore, Option.none_or]) stamp now held
      rw [spanned_none hown, hsame, Bool.and_comm]
      exact both_swap (both_spanned_none more stamp now other clock)
    · have hmore : more.timespan = none := free_none (Bool.not_eq_true _ ▸ hset')
      have hnone : (own.join more).timespan = none := by rw [hjoin.1, hown, hmore, Option.or_none]
      rw [spanned_none hnone, spanned_none hown, spanned_none hmore]
      exact both_some clock other

theorem both_timestamp {own more : Conditions} (h : Beside own more) (stamp now : Int) :
    Both (own.timestampMatches stamp now) (more.timestampMatches stamp now)
      ((own.join more).timestampMatches stamp now) := by
  obtain ⟨hmax₁, hmax₂⟩ := Option.or_eq_none_iff.mp h.ages.1
  obtain ⟨hmin₁, hmin₂⟩ := Option.or_eq_none_iff.mp h.ages.2
  have hafter := slot_join h (.window .after) rfl rfl
  have hbefore := slot_join h (.window .before) rfl rfl
  have hhours : ∀ value, clockHeld (own.join more).afterHour (own.join more).beforeHour 24 value =
      (clockHeld own.afterHour own.beforeHour 24 value && clockHeld more.afterHour more.beforeHour 24 value) :=
    fun value => clockHeld_join 24 value h.hours (slot_join h (.clock .afterHour) rfl rfl)
      (slot_join h (.clock .beforeHour) rfl rfl)
  have hminutes : ∀ value, clockHeld (own.join more).afterMinute (own.join more).beforeMinute 60 value =
      (clockHeld own.afterMinute own.beforeMinute 60 value &&
        clockHeld more.afterMinute more.beforeMinute 60 value) :=
    fun value => clockHeld_join 60 value h.minutes (slot_join h (.clock .afterMinute) rfl rfl)
      (slot_join h (.clock .beforeMinute) rfl rfl)
  have hjoin : (own.join more).after = own.after.or more.after ∧
      (own.join more).before = own.before.or more.before := ⟨rfl, rfl⟩
  rw [timestampMatches_plain hmax₁ hmin₁, timestampMatches_plain hmax₂ hmin₂,
    timestampMatches_plain h.ages.1 h.ages.2, hjoin.1, hjoin.2, any_or hafter, any_or hbefore, hhours, hminutes]
  have hspanned := both_spanned h stamp now
    (clockHeld own.afterHour own.beforeHour 24 (hourOf stamp) &&
      clockHeld own.afterMinute own.beforeMinute 60 (minuteOf stamp))
    (clockHeld more.afterHour more.beforeHour 24 (hourOf stamp) &&
      clockHeld more.afterMinute more.beforeMinute 60 (minuteOf stamp))
  have hswap : ∀ a b c d : Bool, (a && b && (c && d)) = (a && c && (b && d)) := by decide
  rw [hswap] at hspanned
  exact both_exit (both_exit hspanned _ _) _ _

section Matches

variable (jsonText : Json → Text) (lower : Text → Text) (fields : Fields) (now : Int)

theorem both_fieldMatches {own more : Conditions} (h : Beside own more) (field : FilterField) :
    Both (own.fieldMatches jsonText lower fields now field) (more.fieldMatches jsonText lower fields now field)
      ((own.join more).fieldMatches jsonText lower fields now field) := by
  have haddress : ∀ P : AddressSelector → Bool, (own.join more).address.all P =
      (own.address.all P && more.address.all P) := fun P => all_or (slot_join h .address rfl rfl) P
  have hroot := h.root
  obtain ⟨hroot₁, hroot₂⟩ := Option.or_eq_none_iff.mp hroot
  unfold Conditions.fieldMatches
  simp only [valuesOf_join h, operationsHeld_join lower h, haddress, hroot, hroot₁, hroot₂, Bool.not_and,
    Bool.and_or_distrib_left]
  refine both_exit (both_exit (both_exit ?_ _ _) _ _) _ _
  cases field.family with
  | timestamp =>
    simp only
    cases recordTimestamp ((fields field.key).bind RawValue.string) with
    | none =>
      simp only [needsTimestamp_join, Bool.not_or]
      exact both_some _ _
    | some stamp => exact both_timestamp h stamp now
  | level =>
    simp only [levelHeld_join h]
    exact both_some _ _
  | _ => exact both_some true true

/-- **Conditions in one node hold exactly when they hold one by one.** -/
theorem matchesOwn_join {own more : Conditions} (h : Beside own more) (schema : Schema) :
    Both (own.matchesOwn jsonText lower schema fields now) (more.matchesOwn jsonText lower schema fields now)
      ((own.join more).matchesOwn jsonText lower schema fields now) := by
  unfold Conditions.matchesOwn
  have himpossible : (own.join more).impossible = (own.impossible || more.impossible) := rfl
  have hcomputed : ∀ P : Computed × Bool → Bool,
      (own.join more).computed.any P = (own.computed.any P || more.computed.any P) := fun _ => List.any_append
  rw [himpossible, hcomputed]
  exact both_exit (both_exit (both_allM _ fun field _ => both_fieldMatches jsonText lower fields now h field) _ _) _ _

/-! ## 6. Many keys in one node -/

/-- Slots of which each is filled once and none are read together. -/
structure Separate (slots : List Slot) : Prop where
  nodup : slots.Nodup
  ages : Slot.window .maxAge ∉ slots ∧ Slot.window .minAge ∉ slots
  span : Slot.window .timespan ∈ slots → Slot.window .after ∉ slots ∧ Slot.window .before ∉ slots
  hours : ¬ (Slot.clock .afterHour ∈ slots ∧ Slot.clock .beforeHour ∈ slots)
  minutes : ¬ (Slot.clock .afterMinute ∈ slots ∧ Slot.clock .beforeMinute ∈ slots)

/-- A node's conditions fill no slots but these. -/
structure Filled (slots : List Slot) (own : Conditions) : Prop where
  used : ∀ slot, own.used slot = true → slot ∈ slots
  root : own.root = none
  subsample : own.subsample = none

theorem filled_empty (slots : List Slot) : Filled slots {} where
  used := by
    intro slot h
    cases slot with
    | window operator => cases operator <;> cases h
    | clock operator => cases operator <;> cases h
    | bound operator => cases operator <;> cases h
    | _ => cases h
  root := rfl
  subsample := rfl

theorem Delta.plain {slot : Slot} {own : Conditions} (h : Delta slot own) :
    own.root = none ∧ own.subsample = none := by
  cases h <;> exact ⟨rfl, rfl⟩

theorem Filled.join_filled {slots more : List Slot} {own other : Conditions} (h : Filled slots own)
    (hother : Filled more other) : Filled (slots ++ more) (own.join other) where
  used := by
    intro slot hused
    rw [used_join, Bool.or_eq_true] at hused
    exact List.mem_append.mpr (hused.imp (h.used slot) (hother.used slot))
  root := Option.or_eq_none_iff.mpr ⟨h.root, hother.root⟩
  subsample := Option.or_eq_none_iff.mpr ⟨h.subsample, hother.subsample⟩

theorem Delta.filled {slot : Slot} {own : Conditions} (h : Delta slot own) : Filled [slot] own where
  used := fun _ hused => List.mem_singleton.mpr (h.used hused)
  root := h.plain.1
  subsample := h.plain.2

theorem Filled.join {slots : List Slot} {slot : Slot} {own more : Conditions} (h : Filled slots own)
    (hdelta : Delta slot more) : Filled (slots ++ [slot]) (own.join more) := h.join_filled hdelta.filled

theorem Filled.none {slots : List Slot} {own : Conditions} (h : Filled slots own) (slot : Slot) {α : Type}
    {value : Option α} (hslot : own.used slot = value.isSome) (hmem : slot ∉ slots) : value = none :=
  free_none (Bool.eq_false_iff.mpr fun hsome => hmem (h.used slot (hslot.trans hsome)))

/-- Slots that the matcher reads together. -/
def Slot.together : Slot → Slot → Bool
  | .window .timespan, .window .after => true
  | .window .timespan, .window .before => true
  | .window .after, .window .timespan => true
  | .window .before, .window .timespan => true
  | .clock .afterHour, .clock .beforeHour => true
  | .clock .beforeHour, .clock .afterHour => true
  | .clock .afterMinute, .clock .beforeMinute => true
  | .clock .beforeMinute, .clock .afterMinute => true
  | _, _ => false

/-- The slots of two nodes that have none in common and none that are read together. -/
structure Clear (slots more : List Slot) : Prop where
  disjoint : ∀ slot ∈ slots, slot ∉ more
  together : ∀ slot ∈ slots, ∀ other ∈ more, slot.together other = false
  ages : Slot.window .maxAge ∉ slots ++ more ∧ Slot.window .minAge ∉ slots ++ more

theorem beside_of_clear {slots more : List Slot} {own other : Conditions} (h : Filled slots own)
    (hother : Filled more other) (hclear : Clear slots more) : Beside own other := by
  have hjoin := h.join_filled hother
  -- of two slots that are read together, one node has one and the other has nothing for the other
  have hone : ∀ slot slot' : Slot, slot.together slot' = true → own.used slot = true → other.used slot' = false :=
    fun slot slot' htogether hown => Bool.eq_false_iff.mpr fun hused => by
      have hnot := hclear.together slot (h.used slot hown) slot' (hother.used slot' hused)
      rw [htogether] at hnot
      cases hnot
  have hboth : ∀ slot slot' : Slot, slot.together slot' = true → own.used slot = false ∨ other.used slot' = false :=
    fun slot slot' htogether => by
      cases hown : own.used slot with
      | false => exact .inl rfl
      | true => exact .inr (hone slot slot' htogether hown)
  refine ⟨fun slot hused => ?_, ⟨?_, ?_⟩, hjoin.root, ⟨fun hspan => ⟨?_, ?_⟩, fun hspan => ⟨?_, ?_⟩⟩, ⟨?_, ?_⟩,
    ⟨?_, ?_⟩⟩
  · exact hclear.disjoint slot (h.used slot hused.1) (hother.used slot hused.2)
  · exact hjoin.none (.window .maxAge) rfl hclear.ages.1
  · exact hjoin.none (.window .minAge) rfl hclear.ages.2
  · exact free_none (hone (.window .timespan) (.window .after) rfl hspan)
  · exact free_none (hone (.window .timespan) (.window .before) rfl hspan)
  · exact free_none ((hboth (.window .after) (.window .timespan) rfl).resolve_right (Bool.not_eq_false _ ▸ hspan))
  · exact free_none ((hboth (.window .before) (.window .timespan) rfl).resolve_right (Bool.not_eq_false _ ▸ hspan))
  · exact (hboth (.clock .afterHour) (.clock .beforeHour) rfl).imp free_none free_none
  · exact (hboth (.clock .beforeHour) (.clock .afterHour) rfl).imp free_none free_none
  · exact (hboth (.clock .afterMinute) (.clock .beforeMinute) rfl).imp free_none free_none
  · exact (hboth (.clock .beforeMinute) (.clock .afterMinute) rfl).imp free_none free_none

/-- A slot that holds a list, to which every key of its field adds. -/
def Slot.listed : Slot → Bool
  | .equality _ | .operation _ _ => true
  | _ => false

theorem or_or_comm {α : Type} {first second third : Option α} (h : second = none ∨ third = none) :
    (first.or second).or third = (first.or third).or second := by
  rcases h with rfl | rfl <;> rw [Option.or_none, Option.or_none]

/-- A key that adds to no list can stand before or behind any other key. -/
theorem Conditions.join_comm {slot last : Slot} {more rest : Conditions} (h : Delta slot more)
    (hlisted : slot.listed = false) (hrest : Delta last rest) (hne : slot ≠ last) (own : Conditions) :
    (own.join more).join rest = (own.join rest).join more := by
  have hlists : more.equalities = [] ∧ more.operations = [] ∧ more.computed = [] := by
    cases h with
    | equality | operation => cases hlisted
    | _ => exact ⟨rfl, rfl, rfl⟩
  have hcontrols : more.root = none ∧ more.subsampleEvery = none ∧ more.subsample = none ∧
      more.subsampleSelect = none := by
    cases h <;> exact ⟨rfl, rfl, rfl, rfl⟩
  have hone : ∀ used : Slot, more.used used = false ∨ rest.used used = false := by
    intro used
    cases hmore : more.used used with
    | false => exact .inl rfl
    | true =>
      refine .inr (Bool.eq_false_iff.mpr fun hused => hne ?_)
      exact (h.used hmore).symm.trans (hrest.used hused)
  have hslot : ∀ {α : Type} {first second third : Option α} (used : Slot), more.used used = second.isSome →
      rest.used used = third.isSome → (first.or second).or third = (first.or third).or second :=
    fun used hsecond hthird => or_or_comm ((hone used).imp (fun hfree => free_none (hsecond.symm.trans hfree))
      fun hfree => free_none (hthird.symm.trans hfree))
  unfold Conditions.join
  rw [hlists.1, hlists.2.1, hlists.2.2, hcontrols.1, hcontrols.2.1, hcontrols.2.2.1, hcontrols.2.2.2]
  simp only [List.append_nil, Option.or_none]
  rw [hslot .address rfl rfl, hslot (.window .after) rfl rfl, hslot (.window .before) rfl rfl,
    hslot (.window .timespan) rfl rfl, hslot (.window .maxAge) rfl rfl, hslot (.window .minAge) rfl rfl,
    hslot (.clock .afterHour) rfl rfl, hslot (.clock .beforeHour) rfl rfl, hslot (.clock .afterMinute) rfl rfl,
    hslot (.clock .beforeMinute) rfl rfl, hslot (.bound .minimum) rfl rfl, hslot (.bound .maximum) rfl rfl,
    Bool.or_right_comm]

theorem Separate.clear {slots : List Slot} {slot : Slot} (h : Separate (slots ++ [slot])) : Clear slots [slot] where
  disjoint := fun other hmem hslot => (List.nodup_append.mp h.nodup).2.2 _ hmem _ hslot rfl
  together := by
    intro other hother last hlast
    rw [List.mem_singleton] at hlast
    subst hlast
    have hleft : other ∈ slots ++ [last] := List.mem_append_left _ hother
    have hright : last ∈ slots ++ [last] := List.mem_append_right _ List.mem_cons_self
    refine Bool.eq_false_iff.mpr fun htogether => ?_
    unfold Slot.together at htogether
    split at htogether
    · exact (h.span hleft).1 hright
    · exact (h.span hleft).2 hright
    · exact (h.span hright).1 hleft
    · exact (h.span hright).2 hleft
    · exact h.hours ⟨hleft, hright⟩
    · exact h.hours ⟨hright, hleft⟩
    · exact h.minutes ⟨hleft, hright⟩
    · exact h.minutes ⟨hright, hleft⟩
    · cases htogether
  ages := h.ages

theorem Separate.front {slots more : List Slot} (h : Separate (slots ++ more)) : Separate slots where
  nodup := h.nodup.of_append_left
  ages := ⟨fun hmem => h.ages.1 (List.mem_append_left _ hmem), fun hmem => h.ages.2 (List.mem_append_left _ hmem)⟩
  span := fun hspan =>
    have hapart := h.span (List.mem_append_left _ hspan)
    ⟨fun hmem => hapart.1 (List.mem_append_left _ hmem), fun hmem => hapart.2 (List.mem_append_left _ hmem)⟩
  hours := fun hmem => h.hours ⟨List.mem_append_left _ hmem.1, List.mem_append_left _ hmem.2⟩
  minutes := fun hmem => h.minutes ⟨List.mem_append_left _ hmem.1, List.mem_append_left _ hmem.2⟩

/-- **The keys of one node hold together exactly when each holds alone**, when none are read together. -/
theorem matchesOwn_all (schema : Schema) (held : Slot × Conditions → Bool) :
    ∀ (entries : List (Slot × Conditions)) {slots : List Slot} {own : Conditions} {p : Bool},
      Filled slots own → Separate (slots ++ entries.map Prod.fst) → (∀ entry ∈ entries, Delta entry.1 entry.2 ∧
        entry.2.matchesOwn jsonText lower schema fields now = some (held entry)) →
      own.matchesOwn jsonText lower schema fields now = some p →
      Filled (slots ++ entries.map Prod.fst) (entries.foldl (fun own entry => own.join entry.2) own) ∧
        (entries.foldl (fun own entry => own.join entry.2) own).matchesOwn jsonText lower schema fields now =
          some (p && entries.all held)
  | [], slots, own, p, hfilled, _, _, hown => by
      rw [List.map_nil, List.append_nil, List.foldl_nil, List.all_nil, Bool.and_true]
      exact ⟨hfilled, hown⟩
  | entry :: entries, slots, own, p, hfilled, hseparate, hentries, hown => by
      obtain ⟨⟨hdelta, hentry⟩, hrest⟩ := List.forall_mem_cons.mp hentries
      have hsplit : slots ++ (entry :: entries).map Prod.fst = (slots ++ [entry.1]) ++ entries.map Prod.fst := by
        rw [List.map_cons, List.append_assoc]
        rfl
      rw [hsplit] at hseparate ⊢
      have hjoined := matchesOwn_join jsonText lower fields now
        (beside_of_clear hfilled hdelta.filled hseparate.front.clear) schema p (held entry) hown hentry
      have hall := matchesOwn_all schema held entries (hfilled.join hdelta) hseparate hrest hjoined
      rw [List.foldl_cons, List.all_cons, ← Bool.and_assoc]
      exact hall

theorem matchesOwn_empty (schema : Schema) :
    ({} : Conditions).matchesOwn jsonText lower schema fields now = some true := by
  have hfield : ∀ field ∈ schema.fields,
      ({} : Conditions).fieldMatches jsonText lower fields now field = some true := by
    intro field _
    have hoperations : ({} : Conditions).operationsHeld lower field (fields field.key) = true :=
      List.all_eq_true.mpr fun _ _ => rfl
    unfold Conditions.fieldMatches
    simp only [hoperations]
    cases field.family with
    | timestamp =>
      cases recordTimestamp ((fields field.key).bind RawValue.string) with
      | none => simp [Conditions.valuesOf, Conditions.needsTimestamp]
      | some stamp =>
        simp only [Conditions.valuesOf, timestampMatches_plain, spanned_none]
        rfl
    | level => simp [Conditions.valuesOf, Conditions.levelHeld]
    | _ => simp [Conditions.valuesOf]
  have hall : ∀ entries : List FilterField,
      (∀ field ∈ entries, ({} : Conditions).fieldMatches jsonText lower fields now field = some true) →
      entries.allM (({} : Conditions).fieldMatches jsonText lower fields now) = some true := by
    intro entries
    induction entries with
    | nil => exact fun _ => rfl
    | cons field entries ih =>
      intro h
      obtain ⟨hhead, htail⟩ := List.forall_mem_cons.mp h
      rw [List.allM, hhead]
      exact ih htail
  exact hall schema.fields hfield

end Matches

end Ceres.Database
