/-
  File:      Ceres/Utilities/OrderedSet.lean
  Subject:   THE ORDERED SET OF THE PYTHON LIBRARY (`ceres/__internal__/utilities/collections.py`).

  An `OrderedSet` is a subclass of the built-in `set` that keeps its elements a second time, in a list.
  Every operation that changes the one has to change the other, some by rebuilding the list from the set
  (`intersection_update`), some by rebuilding both from a filtered list (`intersection`, `difference`).

  * `OrderedSet.call` -- one operation on one object: the object after it and what it returns or raises;
  * `step` -- the objects of a program: an operation changes its receiver, or makes a new object, and its
    arguments are iterables or other objects (the receiver itself among them);
  * `OrderedSet.Builtin` -- what the built-in set operation of the same name does to the elements;
  * `call_exact` -- an operation is faithful and keeps both representations equal exactly when it is `Fine`;
  * **`ordered_iff_fine`** -- so a run keeps every ordered set in step, faithful and in order exactly when every
    operation of it is `Fine`.

  Four operations are not always `Fine`. Construction compares hashes where the set compares values, and three
  producing operations construct their result. `intersection` of several iterables keeps what is in ANY of
  them, and `symmetric_difference_update` appends an element as often as the iterable has it
  (`Sample.three_runs_drift`).

  The operators (`|`, `&=`, ...) are the methods with one argument. An iterable is the list of what iterating
  over it yields; elements that are equal in Python are one element here.
-/
import Mathlib.Data.Finset.Basic
import Mathlib.Data.Finset.SDiff
import Mathlib.Data.List.Dedup
import Ceres.Library.Run

namespace Ceres.Utilities

open Library (run Along Always)

/-! ## 1. `uniq` -/

section Uniq

variable {α κ : Type} [DecidableEq κ] (key : α → κ)

/-- The loop of `uniq`, over the keys seen so far. -/
def uniqFrom : List κ → List α → List α
  | _, [] => []
  | seen, value :: rest =>
    if key value ∈ seen then uniqFrom seen rest else value :: uniqFrom (key value :: seen) rest

/-- The elements of an iterable whose key is new, in order. -/
def uniq (iterable : List α) : List α :=
  uniqFrom key [] iterable

theorem uniqFrom_sublist : ∀ (seen : List κ) (iterable : List α), (uniqFrom key seen iterable).Sublist iterable
  | _, [] => List.Sublist.slnil
  | seen, value :: rest => by
      rw [uniqFrom]
      split
      · exact (uniqFrom_sublist seen rest).cons value
      · exact (uniqFrom_sublist _ rest).cons_cons value

theorem uniq_sublist (iterable : List α) : (uniq key iterable).Sublist iterable :=
  uniqFrom_sublist key [] iterable

/-- **What `uniq` keeps**: the elements no earlier element has the key of. -/
theorem mem_uniqFrom [DecidableEq α] {x : α} : ∀ (seen : List κ) (iterable : List α),
    x ∈ uniqFrom key seen iterable ↔
      x ∈ iterable ∧ key x ∉ seen ∧ ∀ y ∈ iterable.takeWhile (· ≠ x), key y ≠ key x
  | _, [] => by simp [uniqFrom]
  | seen, value :: rest => by
      rw [uniqFrom]
      by_cases hx : value = x
      · subst hx
        split
        · next hseen => simp [mem_uniqFrom seen rest, hseen]
        · next hseen => simp [hseen]
      · have hne : ¬ x = value := fun h => hx h.symm
        split
        · next hseen =>
          rw [mem_uniqFrom seen rest]
          simp only [List.mem_cons, hne, false_or, ne_eq, hx, not_false_eq_true, decide_true,
            List.takeWhile_cons_of_pos, forall_eq_or_imp]
          refine and_congr_right fun _ => and_congr_right fun hfresh => ?_
          exact (and_iff_right fun h : key value = key x => hfresh (h ▸ hseen)).symm
        · rw [List.mem_cons, mem_uniqFrom (key value :: seen) rest]
          simp only [List.mem_cons, hne, false_or, not_or, ne_eq, hx, not_false_eq_true, decide_true,
            List.takeWhile_cons_of_pos, forall_eq_or_imp]
          constructor
          · rintro ⟨hmem, ⟨hkey, hfresh⟩, hearlier⟩
            exact ⟨hmem, hfresh, fun h => hkey h.symm, hearlier⟩
          · rintro ⟨hmem, hfresh, hkey, hearlier⟩
            exact ⟨hmem, ⟨fun h => hkey h.symm, hfresh⟩, hearlier⟩

theorem mem_uniq [DecidableEq α] {x : α} {iterable : List α} :
    x ∈ uniq key iterable ↔ x ∈ iterable ∧ ∀ y ∈ iterable.takeWhile (· ≠ x), key y ≠ key x := by
  simp [uniq, mem_uniqFrom]

theorem uniqFrom_nodup [DecidableEq α] : ∀ (seen : List κ) (iterable : List α),
    (uniqFrom key seen iterable).Nodup
  | _, [] => List.nodup_nil
  | seen, value :: rest => by
      rw [uniqFrom]
      split
      · exact uniqFrom_nodup seen rest
      · refine List.nodup_cons.mpr ⟨fun hmem => ?_, uniqFrom_nodup _ rest⟩
        exact ((mem_uniqFrom key _ rest).mp hmem).2.1 List.mem_cons_self

theorem uniq_nodup [DecidableEq α] (iterable : List α) : (uniq key iterable).Nodup :=
  uniqFrom_nodup key [] iterable

/-- No two elements share a key. -/
def KeysApart (values : List α) : Prop :=
  ∀ x ∈ values, ∀ y ∈ values, key x = key y → x = y

instance [DecidableEq α] (values : List α) : Decidable (KeysApart key values) :=
  inferInstanceAs (Decidable (∀ x ∈ values, ∀ y ∈ values, key x = key y → x = y))

/-- Of two elements of a list one stands before the other. -/
theorem before_or_before [DecidableEq α] {x y : α} (hne : x ≠ y) : ∀ {values : List α},
    x ∈ values → y ∈ values → y ∈ values.takeWhile (· ≠ x) ∨ x ∈ values.takeWhile (· ≠ y)
  | [], hx, _ => absurd hx List.not_mem_nil
  | value :: rest, hx, hy => by
      by_cases hvx : value = x
      · subst hvx
        right
        simp [hne]
      · by_cases hvy : value = y
        · subst hvy
          left
          simp [hvx]
        · have hx' : x ∈ rest := (List.mem_cons.mp hx).resolve_left fun h => hvx h.symm
          have hy' : y ∈ rest := (List.mem_cons.mp hy).resolve_left fun h => hvy h.symm
          simp only [ne_eq, hvx, hvy, not_false_eq_true, decide_true, List.takeWhile_cons_of_pos,
            List.mem_cons]
          exact (before_or_before hne hx' hy').imp Or.inr Or.inr

/-- Of two elements with one key the later one is dropped. -/
theorem uniq_complete_iff [DecidableEq α] (iterable : List α) :
    (∀ x ∈ iterable, x ∈ uniq key iterable) ↔ KeysApart key iterable := by
  constructor
  · intro hall x hx y hy hkey
    by_contra hne
    rcases before_or_before hne hx hy with h | h
    · exact ((mem_uniq key).mp (hall x hx)).2 y h hkey.symm
    · exact ((mem_uniq key).mp (hall y hy)).2 x h hkey
  · intro hapart x hx
    refine (mem_uniq key).mpr ⟨hx, fun y hy hkey => ?_⟩
    have hmem : y ∈ iterable := (List.takeWhile_prefix _).subset hy
    have hall : (iterable.takeWhile (· ≠ x)).all (· ≠ x) = true := List.all_takeWhile
    have hne : y ≠ x := by simpa using List.all_eq_true.mp hall y hy
    exact hne (hapart y hmem x hx hkey)

end Uniq

/-! ## 2. The class -/

/-- An `OrderedSet`: the `_values` list and the elements of the built-in set it extends. -/
structure OrderedSet (α : Type) where
  values : List α
  members : Finset α
deriving DecidableEq

/-- The list and the set hold the same elements, each once in the list. -/
structure OrderedSet.Proper {α : Type} [DecidableEq α] (s : OrderedSet α) : Prop where
  once : s.values.Nodup
  same : s.values.toFinset = s.members

/-- An argument: what iterating over it yields, or another ordered set. -/
inductive Iterable (α : Type) where
  | items (yielded : List α)
  | set (other : OrderedSet α)

/-- What Python code sees: `__iter__` of an ordered set yields its list. -/
def Iterable.iter {α : Type} : Iterable α → List α
  | .items yielded => yielded
  | .set other => other.values

/-- What the built-in operations see: of a set its elements, whatever `__iter__` says. -/
def Iterable.table {α : Type} [DecidableEq α] : Iterable α → Finset α
  | .items yielded => yielded.toFinset
  | .set other => other.members

def Iterable.Proper {α : Type} [DecidableEq α] : Iterable α → Prop
  | .items _ => True
  | .set other => other.Proper

inductive Exception where
  | keyError
  | valueError
deriving DecidableEq

/-- What a call returns or raises; `σ` is what a set is. -/
inductive Returned (σ α : Type) where
  | nothing
  | object (made : σ)
  | value (removed : α)
  | raised (exception : Exception)

def Returned.map {σ τ α : Type} (f : σ → τ) : Returned σ α → Returned τ α
  | .nothing => .nothing
  | .object made => .object (f made)
  | .value removed => .value removed
  | .raised exception => .raised exception

/-- `list.insert` counts a negative position from the end and stays within the list. -/
def slot (length : Nat) (pos : Int) : Nat :=
  if pos < 0 then (pos + length).toNat else min pos.toNat length

namespace OrderedSet

variable {α : Type} [DecidableEq α] (hash : α → Int)

/-- `__init__`. -/
def new (values : List α) : OrderedSet α :=
  ⟨uniq hash values, (uniq hash values).toFinset⟩

def copy (s : OrderedSet α) : OrderedSet α :=
  ⟨s.values, s.values.toFinset⟩

def add (s : OrderedSet α) (element : α) : OrderedSet α :=
  ⟨if element ∉ s.members then s.values ++ [element] else s.values, insert element s.members⟩

/-- The set raises before the list is touched, the list after the set has changed. -/
def remove (s : OrderedSet α) (element : α) : OrderedSet α × Returned (OrderedSet α) α :=
  if element ∈ s.members then
    let members := s.members.erase element
    if element ∈ s.values then (⟨s.values.erase element, members⟩, .nothing)
    else (⟨s.values, members⟩, .raised .valueError)
  else (s, .raised .keyError)

def pop (s : OrderedSet α) : OrderedSet α × Returned (OrderedSet α) α :=
  match s.values.getLast? with
  | none => (s, .raised .keyError)
  | some value =>
    if value ∈ s.members then (⟨s.values.dropLast, s.members.erase value⟩, .value value)
    else (⟨s.values.dropLast, s.members⟩, .raised .keyError)

def insert (s : OrderedSet α) (pos : Int) (element : α) : OrderedSet α :=
  ⟨if element ∉ s.members then s.values.insertIdx (slot s.values.length pos) element else s.values,
    Insert.insert element s.members⟩

/-- `list.remove` raises for a missing element, before the set is touched. -/
def discard (s : OrderedSet α) (element : α) : OrderedSet α × Returned (OrderedSet α) α :=
  if element ∈ s.members then
    if element ∈ s.values then (⟨s.values.erase element, s.members.erase element⟩, .nothing)
    else (s, .raised .valueError)
  else (s, .nothing)

def clear (_ : OrderedSet α) : OrderedSet α :=
  ⟨[], ∅⟩

/-- The body of the loop of `update`. -/
def put (s : OrderedSet α) (value : α) : OrderedSet α :=
  if value ∉ s.members then ⟨s.values ++ [value], Insert.insert value s.members⟩ else s

def update (s : OrderedSet α) (iterables : List (Iterable α)) : OrderedSet α :=
  iterables.foldl (fun s iterable => iterable.iter.foldl put s) s

def union (s : OrderedSet α) (other : List (Iterable α)) : OrderedSet α :=
  s.copy.update other

/-- `set().update(*other)`. -/
def otherSet (other : List (Iterable α)) : Finset α :=
  other.foldl (fun members iterable => members ∪ iterable.table) ∅

def intersection (s : OrderedSet α) (other : List (Iterable α)) : OrderedSet α :=
  new hash (s.values.filter (· ∈ otherSet other))

def symmetricDifference (s : OrderedSet α) (other : Iterable α) : OrderedSet α :=
  (new hash (s.values.filter (· ∉ other.table))).update [.items (other.iter.filter (· ∉ s.members))]

/-- The built-in `set.difference`. -/
def without (members : Finset α) (other : List (Iterable α)) : Finset α :=
  other.foldl (fun members iterable => members \ iterable.table) members

def difference (s : OrderedSet α) (other : List (Iterable α)) : OrderedSet α :=
  new hash (s.values.filter (· ∈ without s.members other))

/-- The built-in `set.intersection`. -/
def within (members : Finset α) (other : List (Iterable α)) : Finset α :=
  other.foldl (fun members iterable => members ∩ iterable.table) members

def intersectionUpdate (s : OrderedSet α) (other : List (Iterable α)) : OrderedSet α :=
  let members := within s.members other
  ⟨s.values.filter (· ∈ members), members⟩

/-- The elements of the iterable that are new are appended as it yields them. -/
def symmetricDifferenceUpdate (s : OrderedSet α) (other : Iterable α) : OrderedSet α :=
  let members := (s.members \ other.table) ∪ (other.table \ s.members)
  ⟨s.values.filter (· ∈ members) ++ other.iter.filter (· ∈ members), members⟩

def differenceUpdate (s : OrderedSet α) (other : List (Iterable α)) : OrderedSet α :=
  let members := without s.members other
  ⟨s.values.filter (· ∈ members), members⟩

end OrderedSet

/-- The operations on an object, with arguments of type `ι`. -/
inductive Method (α ι : Type) where
  | copy
  | add (element : α)
  | remove (element : α)
  | pop
  | insert (pos : Int) (element : α)
  | discard (element : α)
  | clear
  | update (iterables : List ι)
  | union (other : List ι)
  | intersection (other : List ι)
  | symmetricDifference (other : ι)
  | difference (other : List ι)
  | intersectionUpdate (other : List ι)
  | symmetricDifferenceUpdate (other : ι)
  | differenceUpdate (other : List ι)

/-- One call: the receiver after it, and what it returns or raises. -/
def OrderedSet.call {α : Type} [DecidableEq α] (hash : α → Int) (s : OrderedSet α) :
    Method α (Iterable α) → OrderedSet α × Returned (OrderedSet α) α
  | .copy => (s, .object s.copy)
  | .add element => (s.add element, .nothing)
  | .remove element => s.remove element
  | .pop => s.pop
  | .insert pos element => (s.insert pos element, .nothing)
  | .discard element => s.discard element
  | .clear => (s.clear, .nothing)
  | .update iterables => (s.update iterables, .nothing)
  | .union other => (s, .object (s.union other))
  | .intersection other => (s, .object (s.intersection hash other))
  | .symmetricDifference other => (s, .object (s.symmetricDifference hash other))
  | .difference other => (s, .object (s.difference hash other))
  | .intersectionUpdate other => (s.intersectionUpdate other, .nothing)
  | .symmetricDifferenceUpdate other => (s.symmetricDifferenceUpdate other, .nothing)
  | .differenceUpdate other => (s.differenceUpdate other, .nothing)

/-! ## 3. The objects of a program -/

/-- The ordered sets a program holds, in the order they were made. -/
abbrev Objects (α : Type) := List (OrderedSet α)

/-- An argument as the program names it. -/
inductive Operand (α : Type) where
  | items (yielded : List α)
  | object (index : Nat)

section Resolve

variable {α : Type} (objects : Objects α)

def Operand.resolve : Operand α → Option (Iterable α)
  | .items yielded => some (.items yielded)
  | .object index => objects[index]?.map .set

def resolveAll : List (Operand α) → Option (List (Iterable α))
  | [] => some []
  | operand :: rest => do
    let iterable ← operand.resolve objects
    let iterables ← resolveAll rest
    pure (iterable :: iterables)

def Method.resolve : Method α (Operand α) → Option (Method α (Iterable α))
  | .copy => some .copy
  | .add element => some (.add element)
  | .remove element => some (.remove element)
  | .pop => some .pop
  | .insert pos element => some (.insert pos element)
  | .discard element => some (.discard element)
  | .clear => some .clear
  | .update iterables => (resolveAll objects iterables).map .update
  | .union other => (resolveAll objects other).map .union
  | .intersection other => (resolveAll objects other).map .intersection
  | .symmetricDifference other => (other.resolve objects).map .symmetricDifference
  | .difference other => (resolveAll objects other).map .difference
  | .intersectionUpdate other => (resolveAll objects other).map .intersectionUpdate
  | .symmetricDifferenceUpdate other => (other.resolve objects).map .symmetricDifferenceUpdate
  | .differenceUpdate other => (resolveAll objects other).map .differenceUpdate

end Resolve

inductive Action (α : Type) where
  | new (values : Operand α)
  | call (index : Nat) (method : Method α (Operand α))

variable {α : Type} [DecidableEq α] (hash : α → Int)

/-- The objects after a call: the receiver changes, and an object that is returned is a new one. -/
def afterCall (objects : Objects α) (index : Nat) (result : OrderedSet α × Returned (OrderedSet α) α) :
    Objects α :=
  match result with
  | (receiver, .object made) => objects.set index receiver ++ [made]
  | (receiver, _) => objects.set index receiver

/-- One operation of the program; `none` where it names an object that there is not. -/
def step (objects : Objects α) : Action α → Option (Objects α)
  | .new values => do
    let iterable ← values.resolve objects
    pure (objects ++ [OrderedSet.new hash iterable.iter])
  | .call index method => do
    let receiver ← objects[index]?
    let method ← method.resolve objects
    pure (afterCall objects index (receiver.call hash method))

/-! ## 4. What an operation should do -/

/-- What the built-in operation of the same name does to the elements, and what it returns or raises. -/
def Builtin (members : Finset α) :
    Method α (Iterable α) → Finset α → Returned (Finset α) α → Prop
  | .copy, after, returned => after = members ∧ returned = .object members
  | .add element, after, returned => after = insert element members ∧ returned = .nothing
  | .remove element, after, returned => after = members.erase element ∧
      returned = if element ∈ members then .nothing else .raised .keyError
  | .pop, after, returned =>
      (members = ∅ ∧ after = ∅ ∧ returned = .raised .keyError) ∨
      ∃ element ∈ members, after = members.erase element ∧ returned = .value element
  | .insert _ element, after, returned => after = insert element members ∧ returned = .nothing
  | .discard element, after, returned => after = members.erase element ∧ returned = .nothing
  | .clear, after, returned => after = ∅ ∧ returned = .nothing
  | .update iterables, after, returned =>
      (∀ x, x ∈ after ↔ x ∈ members ∨ ∃ iterable ∈ iterables, x ∈ iterable.table) ∧ returned = .nothing
  | .union other, after, returned => after = members ∧ ∃ made, returned = .object made ∧
      ∀ x, x ∈ made ↔ x ∈ members ∨ ∃ iterable ∈ other, x ∈ iterable.table
  | .intersection other, after, returned => after = members ∧ ∃ made, returned = .object made ∧
      ∀ x, x ∈ made ↔ x ∈ members ∧ ∀ iterable ∈ other, x ∈ iterable.table
  | .symmetricDifference other, after, returned => after = members ∧ ∃ made, returned = .object made ∧
      ∀ x, x ∈ made ↔ (x ∈ members ∧ x ∉ other.table) ∨ (x ∈ other.table ∧ x ∉ members)
  | .difference other, after, returned => after = members ∧ ∃ made, returned = .object made ∧
      ∀ x, x ∈ made ↔ x ∈ members ∧ ∀ iterable ∈ other, x ∉ iterable.table
  | .intersectionUpdate other, after, returned =>
      (∀ x, x ∈ after ↔ x ∈ members ∧ ∀ iterable ∈ other, x ∈ iterable.table) ∧ returned = .nothing
  | .symmetricDifferenceUpdate other, after, returned =>
      (∀ x, x ∈ after ↔ (x ∈ members ∧ x ∉ other.table) ∨ (x ∈ other.table ∧ x ∉ members)) ∧
      returned = .nothing
  | .differenceUpdate other, after, returned =>
      (∀ x, x ∈ after ↔ x ∈ members ∧ ∀ iterable ∈ other, x ∉ iterable.table) ∧ returned = .nothing

/-- The elements of `new` that come from `old` stand in it in the order of `old`, each once. -/
def KeepsOrder (old new : List α) : Prop :=
  (new.filter (· ∈ old)).Sublist old

/-- A call does to the elements what the built-in operation does, and surviving elements keep their order,
    in the receiver and in an object that is returned. -/
structure Faithful (s : OrderedSet α) (method : Method α (Iterable α))
    (result : OrderedSet α × Returned (OrderedSet α) α) : Prop where
  builtin : Builtin s.members method result.1.members (result.2.map (·.members))
  order : KeepsOrder s.values result.1.values
  orderMade : ∀ made, result.2 = .object made → KeepsOrder s.values made.values

/-- An action is faithful: a construction to what it iterates over, a call to its receiver. -/
def FaithfulAction (objects : Objects α) : Action α → Prop
  | .new values => ∀ iterable, values.resolve objects = some iterable →
      (OrderedSet.new hash iterable.iter).members = iterable.table ∧
      KeepsOrder iterable.iter (OrderedSet.new hash iterable.iter).values
  | .call index method => ∀ receiver resolved, objects[index]? = some receiver →
      method.resolve objects = some resolved → Faithful receiver resolved (receiver.call hash resolved)

/-! ## 5. When an operation does it -/

/-- `x` is in one of the iterables, and no earlier element with its hash is. -/
def FirstFound (values : List α) (other : List (Iterable α)) (x : α) : Prop :=
  (∃ iterable ∈ other, x ∈ iterable.table) ∧
  ∀ y ∈ values.takeWhile (· ≠ x), (∃ iterable ∈ other, y ∈ iterable.table) → hash y ≠ hash x

/-- The condition on an operation: three rebuild their result by hash, `intersection` besides keeps what any
    of the iterables has, and `symmetric_difference_update` appends what it is given more than once. -/
def Fine (s : OrderedSet α) : Method α (Iterable α) → Prop
  | .intersection other =>
      ∀ x ∈ s.values, FirstFound hash s.values other x ↔ ∀ iterable ∈ other, x ∈ iterable.table
  | .symmetricDifference other => KeysApart hash (s.values.filter (· ∉ other.table))
  | .difference other => KeysApart hash (s.values.filter fun x => ∀ iterable ∈ other, x ∉ iterable.table)
  | .symmetricDifferenceUpdate other => (other.iter.filter (· ∉ s.members)).Nodup
  | _ => True

/-- A construction is fine when no two of the values share a hash, a call when it is on its receiver. -/
def FineAction (objects : Objects α) : Action α → Prop
  | .new values => ∀ iterable, values.resolve objects = some iterable → KeysApart hash iterable.iter
  | .call index method => ∀ receiver resolved, objects[index]? = some receiver →
      method.resolve objects = some resolved → Fine hash receiver resolved

/-! ## 6. Order -/

theorem keepsOrder_of_sublist {old new : List α} (h : new.Sublist old) : KeepsOrder old new :=
  List.filter_sublist.trans h

/-- What is appended anew is after everything that survives. -/
theorem keepsOrder_append {old kept added : List α} (hkept : kept.Sublist old)
    (hadded : ∀ x ∈ added, x ∉ old) : KeepsOrder old (kept ++ added) := by
  have hnone : added.filter (· ∈ old) = [] := by
    rw [List.filter_eq_nil_iff]
    exact fun x hx => by simpa using hadded x hx
  rw [KeepsOrder, List.filter_append, hnone, List.append_nil]
  exact keepsOrder_of_sublist hkept

variable {x : α}

omit [DecidableEq α] in
theorem filter_insertIdx {p : α → Bool} (hx : p x = false) : ∀ (k : Nat) (values : List α),
    (values.insertIdx k x).filter p = values.filter p
  | 0, values => by rw [List.insertIdx_zero, List.filter_cons_of_neg (by simp [hx])]
  | _ + 1, [] => rfl
  | k + 1, value :: rest => by
      rw [List.insertIdx_succ_cons, List.filter_cons, List.filter_cons, filter_insertIdx hx k rest]

theorem keepsOrder_insertIdx {old : List α} (hx : x ∉ old) (k : Nat) : KeepsOrder old (old.insertIdx k x) := by
  rw [KeepsOrder, filter_insertIdx (by simpa using hx)]
  exact List.filter_sublist

/-! ## 7. The operations -/

theorem slot_le (length : Nat) (pos : Int) : slot length pos ≤ length := by
  rw [slot]
  split <;> omega

variable {other : List (Iterable α)}

theorem mem_otherSet : x ∈ OrderedSet.otherSet other ↔ ∃ iterable ∈ other, x ∈ iterable.table := by
  have hfold : ∀ (other : List (Iterable α)) (members : Finset α),
      x ∈ other.foldl (fun members iterable => members ∪ iterable.table) members ↔
        x ∈ members ∨ ∃ iterable ∈ other, x ∈ iterable.table := by
    intro other
    induction other with
    | nil => simp
    | cons iterable rest ih =>
      intro members
      rw [List.foldl_cons, ih, Finset.mem_union, or_assoc]
      simp
  rw [OrderedSet.otherSet, hfold other ∅]
  simp

theorem mem_without {members : Finset α} :
    x ∈ OrderedSet.without members other ↔ x ∈ members ∧ ∀ iterable ∈ other, x ∉ iterable.table := by
  rw [OrderedSet.without]
  induction other generalizing members with
  | nil => simp
  | cons iterable rest ih =>
    rw [List.foldl_cons, ih, Finset.mem_sdiff, and_assoc]
    simp

theorem mem_within {members : Finset α} :
    x ∈ OrderedSet.within members other ↔ x ∈ members ∧ ∀ iterable ∈ other, x ∈ iterable.table := by
  rw [OrderedSet.within]
  induction other generalizing members with
  | nil => simp
  | cons iterable rest ih =>
    rw [List.foldl_cons, ih, Finset.mem_inter, and_assoc]
    simp

namespace OrderedSet

variable {s : OrderedSet α}

theorem Proper.mem (h : s.Proper) {x : α} : x ∈ s.values ↔ x ∈ s.members := by
  rw [← h.same, List.mem_toFinset]

theorem proper_of_mem (once : s.values.Nodup) (h : ∀ x, x ∈ s.values ↔ x ∈ s.members) : s.Proper :=
  ⟨once, Finset.ext fun x => by rw [List.mem_toFinset, h x]⟩

theorem new_proper (values : List α) : (new hash values).Proper :=
  ⟨uniq_nodup hash values, rfl⟩

theorem mem_new {values : List α} {x : α} : x ∈ (new hash values).members ↔ x ∈ uniq hash values :=
  List.mem_toFinset

theorem copy_eq (h : s.Proper) : s.copy = s := by
  rw [copy, h.same]

/-! ### `update` -/

theorem put_proper (h : s.Proper) (value : α) : (s.put value).Proper := by
  rw [put]
  split
  · next hnew =>
    refine proper_of_mem ?_ fun x => ?_
    · exact List.nodup_append.mpr ⟨h.once, List.nodup_singleton value, fun x hx y hy => by
        rw [List.mem_singleton.mp hy]
        exact fun he => hnew (h.mem.mp (he ▸ hx))⟩
    · simp only [List.mem_append, List.mem_singleton, Finset.mem_insert, h.mem, or_comm]
  · exact h

theorem mem_put {value x : α} : x ∈ (s.put value).members ↔ x ∈ s.members ∨ x = value := by
  rw [put]
  split
  · rw [Finset.mem_insert, or_comm]
  · next hold =>
    have hmem : value ∈ s.members := not_not.mp hold
    exact ⟨Or.inl, fun h => h.elim id fun he => he ▸ hmem⟩

theorem put_values (s : OrderedSet α) (value : α) :
    ∃ added, (s.put value).values = s.values ++ added ∧ ∀ x ∈ added, x ∉ s.members := by
  rw [put]
  split
  · next hnew => exact ⟨[value], rfl, fun x hx => List.mem_singleton.mp hx ▸ hnew⟩
  · exact ⟨[], (List.append_nil _).symm, by simp⟩

theorem foldl_put_proper (items : List α) (h : s.Proper) : (items.foldl put s).Proper := by
  induction items generalizing s with
  | nil => exact h
  | cons value rest ih => exact ih (put_proper h value)

theorem mem_foldl_put {items : List α} {x : α} : x ∈ (items.foldl put s).members ↔ x ∈ s.members ∨ x ∈ items := by
  induction items generalizing s with
  | nil => simp
  | cons value rest ih => rw [List.foldl_cons, ih, mem_put, or_assoc, List.mem_cons]

theorem foldl_put_values (items : List α) (s : OrderedSet α) :
    ∃ added, (items.foldl put s).values = s.values ++ added ∧ ∀ x ∈ added, x ∉ s.members := by
  induction items generalizing s with
  | nil => exact ⟨[], (List.append_nil _).symm, by simp⟩
  | cons value rest ih =>
    obtain ⟨first, hfirst, hnew⟩ := put_values s value
    obtain ⟨added, hadded, hlater⟩ := ih (s.put value)
    refine ⟨first ++ added, ?_, fun x hx => ?_⟩
    · rw [List.foldl_cons, hadded, hfirst, List.append_assoc]
    · rcases List.mem_append.mp hx with hx | hx
      · exact hnew x hx
      · exact fun hmem => hlater x hx (mem_put.mpr (Or.inl hmem))

/-- `update` goes through its iterables as through one. -/
theorem update_eq (s : OrderedSet α) (iterables : List (Iterable α)) :
    s.update iterables = (iterables.flatMap Iterable.iter).foldl put s := by
  rw [update]
  induction iterables generalizing s with
  | nil => rfl
  | cons iterable rest ih => rw [List.foldl_cons, ih, List.flatMap_cons, List.foldl_append]

theorem update_proper (h : s.Proper) (iterables : List (Iterable α)) : (s.update iterables).Proper := by
  rw [update_eq]
  exact foldl_put_proper _ h

theorem update_keepsOrder (h : s.Proper) (iterables : List (Iterable α)) :
    KeepsOrder s.values (s.update iterables).values := by
  obtain ⟨added, hvalues, hadded⟩ := foldl_put_values (iterables.flatMap Iterable.iter) s
  rw [update_eq, hvalues]
  exact keepsOrder_append (List.Sublist.refl _) fun x hx hmem => hadded x hx (h.mem.mp hmem)

end OrderedSet

theorem Iterable.mem_iter {iterable : Iterable α} (h : iterable.Proper) :
    x ∈ iterable.iter ↔ x ∈ iterable.table := by
  cases iterable with
  | items yielded => exact List.mem_toFinset.symm
  | set other => exact OrderedSet.Proper.mem h

theorem OrderedSet.mem_update {s : OrderedSet α} {iterables : List (Iterable α)}
    (h : ∀ iterable ∈ iterables, iterable.Proper) :
    x ∈ (s.update iterables).members ↔ x ∈ s.members ∨ ∃ iterable ∈ iterables, x ∈ iterable.table := by
  rw [update_eq, mem_foldl_put, List.mem_flatMap]
  refine or_congr_right (exists_congr fun iterable => and_congr_right fun hmem => ?_)
  exact Iterable.mem_iter (h iterable hmem)

namespace OrderedSet

/-! ### The operations in place -/

theorem add_eq (s : OrderedSet α) (element : α) : s.add element = s.put element := by
  rw [add, put]
  split
  · rfl
  · next hold => rw [Finset.insert_eq_of_mem (not_not.mp hold)]

variable {s : OrderedSet α}

theorem add_keepsOrder (h : s.Proper) (element : α) : KeepsOrder s.values (s.add element).values := by
  obtain ⟨added, hvalues, hadded⟩ := put_values s element
  rw [add_eq, hvalues]
  exact keepsOrder_append (List.Sublist.refl _) fun x hx hmem => hadded x hx (h.mem.mp hmem)

theorem insert_proper (h : s.Proper) (pos : Int) (element : α) : (s.insert pos element).Proper := by
  rw [insert]
  split
  · next hnew =>
    have hperm := List.perm_insertIdx element s.values (slot_le s.values.length pos)
    refine proper_of_mem ?_ fun x => ?_
    · exact hperm.nodup_iff.mpr (List.nodup_cons.mpr ⟨fun hmem => hnew (h.mem.mp hmem), h.once⟩)
    · rw [hperm.mem_iff, List.mem_cons, h.mem, Finset.mem_insert]
  · next hold => exact ⟨h.once, by rw [h.same, Finset.insert_eq_of_mem (not_not.mp hold)]⟩

theorem insert_keepsOrder (h : s.Proper) (pos : Int) (element : α) :
    KeepsOrder s.values (s.insert pos element).values := by
  rw [insert]
  split
  · next hnew => exact keepsOrder_insertIdx (fun hmem => hnew (h.mem.mp hmem)) _
  · exact keepsOrder_of_sublist (List.Sublist.refl _)

theorem erase_proper (h : s.Proper) (element : α) :
    (⟨s.values.erase element, s.members.erase element⟩ : OrderedSet α).Proper :=
  proper_of_mem (h.once.erase element) fun x => by
    rw [h.once.mem_erase_iff, Finset.mem_erase, h.mem]

/-- The last element is in both representations, and `pop` takes it from both. -/
theorem pop_spec (h : s.Proper) : (s.members = ∅ ∧ s.pop = (s, .raised .keyError)) ∨
    ∃ element ∈ s.members, s.pop = (⟨s.values.erase element, s.members.erase element⟩, .value element) := by
  rw [pop]
  cases hlast : s.values.getLast? with
  | none =>
    left
    rw [List.getLast?_eq_none_iff] at hlast
    exact ⟨by rw [← h.same, hlast, List.toFinset_nil], rfl⟩
  | some element =>
    right
    have hvalues : s.values = s.values.dropLast ++ [element] := (List.dropLast_append_getLast? element hlast).symm
    have hmem : element ∈ s.members := h.mem.mp (List.mem_of_getLast? hlast)
    have hnot : element ∉ s.values.dropLast := by
      intro hin
      have hnodup := h.once
      rw [hvalues, List.nodup_append] at hnodup
      exact hnodup.2.2 element hin element (List.mem_singleton_self _) rfl
    have herase : s.values.erase element = s.values.dropLast := by
      conv_lhs => rw [hvalues, List.erase_append_right _ hnot, List.erase_cons_head, List.append_nil]
    refine ⟨element, hmem, ?_⟩
    rw [herase]
    exact if_pos hmem

theorem filter_proper (h : s.Proper) {members : Finset α} (hsubset : ∀ x ∈ members, x ∈ s.members) :
    (⟨s.values.filter (· ∈ members), members⟩ : OrderedSet α).Proper :=
  proper_of_mem (h.once.filter _) fun x => by
    simp only [List.mem_filter, decide_eq_true_eq, h.mem]
    exact ⟨And.right, fun hmem => ⟨hsubset x hmem, hmem⟩⟩

/-! ### The operations that make an object -/

theorem new_keepsOrder (values : List α) : KeepsOrder values (new hash values).values :=
  keepsOrder_of_sublist (uniq_sublist hash values)

theorem rebuilt_keepsOrder (s : OrderedSet α) (p : α → Bool) :
    KeepsOrder s.values (new hash (s.values.filter p)).values :=
  keepsOrder_of_sublist ((uniq_sublist hash _).trans List.filter_sublist)

/-- **Construction drops nothing exactly when no two elements share a hash.** -/
theorem new_members_iff (values : List α) :
    (new hash values).members = values.toFinset ↔ KeysApart hash values := by
  rw [← uniq_complete_iff]
  constructor
  · intro heq x hx
    rw [← mem_new, heq]
    exact List.mem_toFinset.mpr hx
  · intro hall
    refine Finset.ext fun x => ?_
    rw [mem_new, List.mem_toFinset]
    exact ⟨fun hx => (uniq_sublist hash values).subset hx, hall x⟩

end OrderedSet

/-! ## 8. One operation -/

def Method.arguments {α ι : Type} : Method α ι → List ι
  | .update iterables => iterables
  | .union other => other
  | .intersection other => other
  | .symmetricDifference other => [other]
  | .difference other => other
  | .intersectionUpdate other => other
  | .symmetricDifferenceUpdate other => [other]
  | .differenceUpdate other => other
  | _ => []

/-- The receiver after a call and the object it returns are in step. -/
structure InStep (result : OrderedSet α × Returned (OrderedSet α) α) : Prop where
  receiver : result.1.Proper
  made : ∀ made, result.2 = .object made → made.Proper

variable {method : Method α (Iterable α)}

/-- A call that changes its receiver is judged by the elements alone once the receiver is in step. -/
theorem inPlace_exact {s after : OrderedSet α} {returned : Returned (OrderedSet α) α} (hafter : after.Proper)
    (horder : KeepsOrder s.values after.values) (hnone : ∀ made, returned ≠ .object made) :
    Faithful s method (after, returned) ∧ InStep (after, returned) ↔
      Builtin s.members method after.members (returned.map (·.members)) := by
  constructor
  · exact fun h => h.1.builtin
  · intro hbuiltin
    exact ⟨⟨hbuiltin, horder, fun made hmade => absurd hmade (hnone made)⟩,
      ⟨hafter, fun made hmade => absurd hmade (hnone made)⟩⟩

/-- A call that makes an object leaves its receiver, and is judged by the elements of the object. -/
theorem made_exact {s made : OrderedSet α} (h : s.Proper) (hmade : made.Proper)
    (horder : KeepsOrder s.values made.values) : Faithful s method (s, .object made) ∧ InStep (s, .object made) ↔
      Builtin s.members method s.members (.object made.members) := by
  constructor
  · exact fun h => h.1.builtin
  · intro hbuiltin
    refine ⟨⟨hbuiltin, keepsOrder_of_sublist (List.Sublist.refl _), ?_⟩, ⟨h, ?_⟩⟩
    · rintro _ ⟨rfl⟩
      exact horder
    · rintro _ ⟨rfl⟩
      exact hmade

omit [DecidableEq α] in
theorem exists_object_iff {members : Finset α} {made : OrderedSet α} {P : α → Prop} :
    (members = members ∧ ∃ object, Returned.object (α := α) made.members = .object object ∧
      ∀ x, x ∈ object ↔ P x) ↔ ∀ x, x ∈ made.members ↔ P x := by
  constructor
  · rintro ⟨_, object, hobject, hmem⟩
    rw [Returned.object.injEq] at hobject
    exact hobject ▸ hmem
  · exact fun hmem => ⟨rfl, made.members, rfl, hmem⟩

theorem takeWhile_filter {p : α → Bool} (hx : p x = true) : ∀ (values : List α),
    (values.filter p).takeWhile (· ≠ x) = (values.takeWhile (· ≠ x)).filter p
  | [] => rfl
  | value :: rest => by
      by_cases hvalue : p value = true
      · rw [List.filter_cons_of_pos hvalue, List.takeWhile_cons, List.takeWhile_cons, takeWhile_filter hx rest]
        split
        · rw [List.filter_cons_of_pos hvalue]
        · rfl
      · have hne : value ≠ x := fun h => hvalue (h ▸ hx)
        rw [List.filter_cons_of_neg hvalue, List.takeWhile_cons_of_pos (by simpa using hne),
          List.filter_cons_of_neg hvalue, takeWhile_filter hx rest]

/-- **What `intersection` keeps**: of each hash the first element that one of the iterables has. -/
theorem mem_intersection {s : OrderedSet α} (h : s.Proper) :
    x ∈ (s.intersection hash other).members ↔ x ∈ s.members ∧ FirstFound hash s.values other x := by
  rw [OrderedSet.intersection, OrderedSet.mem_new, mem_uniq, List.mem_filter, h.mem, and_assoc, FirstFound]
  refine and_congr_right fun _ => ?_
  rw [decide_eq_true_eq, mem_otherSet]
  refine and_congr_right fun hfound => ?_
  have hx : decide (x ∈ OrderedSet.otherSet other) = true := by
    rw [decide_eq_true_eq, mem_otherSet]
    exact hfound
  rw [takeWhile_filter (p := fun y => decide (y ∈ OrderedSet.otherSet other)) hx]
  refine forall_congr' fun y => ?_
  rw [List.mem_filter, decide_eq_true_eq, mem_otherSet, and_imp]

theorem intersection_exact {s : OrderedSet α} (h : s.Proper) (other : List (Iterable α)) :
    (∀ x, x ∈ (s.intersection hash other).members ↔
        x ∈ s.members ∧ ∀ iterable ∈ other, x ∈ iterable.table) ↔ Fine hash s (.intersection other) := by
  refine forall_congr' fun x => ?_
  rw [mem_intersection hash h, h.mem]
  exact and_congr_right_iff

theorem difference_exact {s : OrderedSet α} (h : s.Proper) (other : List (Iterable α)) :
    (∀ x, x ∈ (s.difference hash other).members ↔
        x ∈ s.members ∧ ∀ iterable ∈ other, x ∉ iterable.table) ↔ Fine hash s (.difference other) := by
  have hfilter : s.values.filter (· ∈ OrderedSet.without s.members other) =
      s.values.filter fun x => ∀ iterable ∈ other, x ∉ iterable.table := by
    refine List.filter_congr fun x hx => ?_
    rw [decide_eq_decide, mem_without]
    exact and_iff_right (h.mem.mp hx)
  rw [OrderedSet.difference, hfilter, Fine, ← OrderedSet.new_members_iff, Finset.ext_iff]
  refine forall_congr' fun x => ?_
  rw [List.mem_toFinset, List.mem_filter, decide_eq_true_eq, h.mem]

theorem symmetricDifference_proper (s : OrderedSet α) (other : Iterable α) :
    (s.symmetricDifference hash other).Proper :=
  OrderedSet.update_proper (OrderedSet.new_proper hash _) _

theorem symmetricDifference_keepsOrder {s : OrderedSet α} (h : s.Proper) (other : Iterable α) :
    KeepsOrder s.values (s.symmetricDifference hash other).values := by
  have hproper := symmetricDifference_proper hash s other
  rw [OrderedSet.symmetricDifference] at hproper ⊢
  obtain ⟨added, hvalues, hadded⟩ := OrderedSet.foldl_put_values
    ([Iterable.items (other.iter.filter (· ∉ s.members))].flatMap Iterable.iter)
    (OrderedSet.new hash (s.values.filter (· ∉ other.table)))
  rw [← OrderedSet.update_eq] at hvalues
  rw [hvalues]
  refine keepsOrder_append ((uniq_sublist hash _).trans List.filter_sublist) fun x hx hin => ?_
  -- What was appended comes from the iterable, of which only new elements are taken.
  have hmem := hproper.mem.mp (hvalues ▸ List.mem_append_right _ hx)
  rcases (OrderedSet.mem_update (by simp [Iterable.Proper])).mp hmem with hold | hnew
  · exact hadded x hx hold
  · simp only [List.mem_singleton, exists_eq_left, Iterable.table, List.mem_toFinset, List.mem_filter,
      decide_eq_true_eq] at hnew
    exact hnew.2 (h.mem.mp hin)

theorem symmetricDifference_exact {s : OrderedSet α} (h : s.Proper) {other : Iterable α} (hother : other.Proper) :
    (∀ x, x ∈ (s.symmetricDifference hash other).members ↔
        (x ∈ s.members ∧ x ∉ other.table) ∨ (x ∈ other.table ∧ x ∉ s.members)) ↔
      Fine hash s (.symmetricDifference other) := by
  rw [Fine, ← OrderedSet.new_members_iff, Finset.ext_iff]
  refine forall_congr' fun x => ?_
  rw [OrderedSet.symmetricDifference, OrderedSet.mem_update (by simp [Iterable.Proper]), List.mem_toFinset,
    List.mem_filter, decide_eq_true_eq, h.mem]
  have hnew : (∃ iterable ∈ [Iterable.items (other.iter.filter (· ∉ s.members))], x ∈ iterable.table) ↔
      x ∈ other.table ∧ x ∉ s.members := by
    simp [Iterable.table, Iterable.mem_iter hother]
  rw [hnew]
  have hkept : x ∈ (OrderedSet.new hash (s.values.filter (· ∉ other.table))).members → x ∈ s.members := by
    intro hx
    have hin := (uniq_sublist hash _).subset (OrderedSet.mem_new hash |>.mp hx)
    exact h.mem.mp (List.mem_filter.mp hin).1
  tauto

theorem symmetricDifferenceUpdate_exact {s : OrderedSet α} (h : s.Proper) {other : Iterable α}
    (hother : other.Proper) :
    Faithful s (.symmetricDifferenceUpdate other) (s.symmetricDifferenceUpdate other, .nothing) ∧
      InStep (s.symmetricDifferenceUpdate other, .nothing) ↔ Fine hash s (.symmetricDifferenceUpdate other) := by
  have hmem : ∀ x, x ∈ (s.symmetricDifferenceUpdate other).members ↔
      (x ∈ s.members ∧ x ∉ other.table) ∨ (x ∈ other.table ∧ x ∉ s.members) := fun x => by
    simp [OrderedSet.symmetricDifferenceUpdate]
  -- Of the iterable exactly the new elements are appended, and the list had none of them.
  have hadded : other.iter.filter (· ∈ (s.symmetricDifferenceUpdate other).members) =
      other.iter.filter (· ∉ s.members) := by
    refine List.filter_congr fun x hx => ?_
    have htable : x ∈ other.table := (Iterable.mem_iter hother).mp hx
    rw [decide_eq_decide, hmem]
    tauto
  have hvalues : (s.symmetricDifferenceUpdate other).values =
      s.values.filter (· ∈ (s.symmetricDifferenceUpdate other).members) ++
        other.iter.filter (· ∉ s.members) := by
    rw [← hadded]
    rfl
  have hnew : ∀ x ∈ other.iter.filter (· ∉ s.members), x ∉ s.values := fun x hx hin =>
    (of_decide_eq_true (List.mem_filter.mp hx).2) (h.mem.mp hin)
  have horder : KeepsOrder s.values (s.symmetricDifferenceUpdate other).values := by
    rw [hvalues]
    exact keepsOrder_append List.filter_sublist hnew
  have hproper : (s.symmetricDifferenceUpdate other).Proper ↔ (other.iter.filter (· ∉ s.members)).Nodup := by
    constructor
    · intro hproper
      have hnodup := hproper.once
      rw [hvalues, List.nodup_append] at hnodup
      exact hnodup.2.1
    · intro hnodup
      refine OrderedSet.proper_of_mem ?_ fun x => ?_
      · rw [hvalues, List.nodup_append]
        refine ⟨h.once.filter _, hnodup, fun x hx y hy hxy => ?_⟩
        exact hnew y hy (hxy ▸ (List.mem_filter.mp hx).1)
      · rw [hvalues, List.mem_append, List.mem_filter, List.mem_filter, decide_eq_true_eq, decide_eq_true_eq,
          hmem, h.mem, Iterable.mem_iter hother]
        tauto
  rw [Fine, ← hproper]
  constructor
  · exact fun hboth => hboth.2.receiver
  · exact fun hafter => (inPlace_exact hafter horder (by simp)).mpr ⟨hmem, rfl⟩

/-- **One operation**: on a receiver and arguments that are in step it does what the built-in operation does,
    keeps the order and leaves everything in step exactly when it is `Fine`. -/
theorem call_exact {s : OrderedSet α} (h : s.Proper)
    (harguments : ∀ iterable ∈ method.arguments, iterable.Proper) :
    Faithful s method (s.call hash method) ∧ InStep (s.call hash method) ↔ Fine hash s method := by
  have hself : KeepsOrder s.values s.values := keepsOrder_of_sublist (List.Sublist.refl _)
  cases method with
  | copy =>
    rw [OrderedSet.call, OrderedSet.copy_eq h]
    refine (made_exact h h hself).trans ?_
    exact iff_of_true ⟨rfl, rfl⟩ trivial
  | add element =>
    have hproper : (s.add element).Proper := OrderedSet.add_eq s element ▸ OrderedSet.put_proper h element
    refine (inPlace_exact hproper (OrderedSet.add_keepsOrder h element) (by simp)).trans ?_
    exact iff_of_true ⟨rfl, rfl⟩ trivial
  | remove element =>
    rw [OrderedSet.call, OrderedSet.remove]
    by_cases hmem : element ∈ s.members
    · rw [if_pos hmem, if_pos (h.mem.mpr hmem)]
      refine (inPlace_exact (OrderedSet.erase_proper h element)
        (keepsOrder_of_sublist List.erase_sublist) (by simp)).trans ?_
      exact iff_of_true ⟨rfl, by rw [if_pos hmem]; rfl⟩ trivial
    · rw [if_neg hmem]
      refine (inPlace_exact h hself (by simp)).trans ?_
      exact iff_of_true ⟨(Finset.erase_eq_of_notMem hmem).symm, by rw [if_neg hmem]; rfl⟩ trivial
  | pop =>
    rw [OrderedSet.call]
    rcases OrderedSet.pop_spec h with ⟨hempty, hpop⟩ | ⟨element, hmem, hpop⟩
    · rw [hpop]
      refine (inPlace_exact h hself (by simp)).trans ?_
      exact iff_of_true (Or.inl ⟨hempty, hempty, rfl⟩) trivial
    · rw [hpop]
      refine (inPlace_exact (OrderedSet.erase_proper h element)
        (keepsOrder_of_sublist List.erase_sublist) (by simp)).trans ?_
      exact iff_of_true (Or.inr ⟨element, hmem, rfl, rfl⟩) trivial
  | insert pos element =>
    refine (inPlace_exact (OrderedSet.insert_proper h pos element)
      (OrderedSet.insert_keepsOrder h pos element) (by simp)).trans ?_
    exact iff_of_true ⟨rfl, rfl⟩ trivial
  | discard element =>
    rw [OrderedSet.call, OrderedSet.discard]
    by_cases hmem : element ∈ s.members
    · rw [if_pos hmem, if_pos (h.mem.mpr hmem)]
      refine (inPlace_exact (OrderedSet.erase_proper h element)
        (keepsOrder_of_sublist List.erase_sublist) (by simp)).trans ?_
      exact iff_of_true ⟨rfl, rfl⟩ trivial
    · rw [if_neg hmem]
      refine (inPlace_exact h hself (by simp)).trans ?_
      exact iff_of_true ⟨(Finset.erase_eq_of_notMem hmem).symm, rfl⟩ trivial
  | clear =>
    have hproper : s.clear.Proper := ⟨List.nodup_nil, rfl⟩
    refine (inPlace_exact hproper (keepsOrder_of_sublist (List.nil_sublist _)) (by simp)).trans ?_
    exact iff_of_true ⟨rfl, rfl⟩ trivial
  | update iterables =>
    refine (inPlace_exact (OrderedSet.update_proper h iterables)
      (OrderedSet.update_keepsOrder h iterables) (by simp)).trans ?_
    exact iff_of_true ⟨fun x => OrderedSet.mem_update harguments, rfl⟩ trivial
  | union other =>
    have hunion : s.union other = s.update other := by rw [OrderedSet.union, OrderedSet.copy_eq h]
    rw [OrderedSet.call, hunion]
    refine (made_exact h (OrderedSet.update_proper h other) (OrderedSet.update_keepsOrder h other)).trans ?_
    exact iff_of_true (exists_object_iff.mpr fun x => OrderedSet.mem_update harguments) trivial
  | intersection other =>
    refine (made_exact h (OrderedSet.new_proper hash _) (OrderedSet.rebuilt_keepsOrder hash s _)).trans ?_
    exact exists_object_iff.trans (intersection_exact hash h other)
  | symmetricDifference other =>
    have hother : other.Proper := harguments other (List.mem_singleton_self _)
    refine (made_exact h (symmetricDifference_proper hash s other)
      (symmetricDifference_keepsOrder hash h other)).trans ?_
    exact exists_object_iff.trans (symmetricDifference_exact hash h hother)
  | difference other =>
    refine (made_exact h (OrderedSet.new_proper hash _) (OrderedSet.rebuilt_keepsOrder hash s _)).trans ?_
    exact exists_object_iff.trans (difference_exact hash h other)
  | intersectionUpdate other =>
    have hproper := OrderedSet.filter_proper h fun x (hx : x ∈ OrderedSet.within s.members other) =>
      (mem_within.mp hx).1
    refine (inPlace_exact hproper (keepsOrder_of_sublist List.filter_sublist) (by simp)).trans ?_
    exact iff_of_true ⟨fun x => mem_within, rfl⟩ trivial
  | symmetricDifferenceUpdate other =>
    exact symmetricDifferenceUpdate_exact hash h (harguments other (List.mem_singleton_self _))
  | differenceUpdate other =>
    have hproper := OrderedSet.filter_proper h fun x (hx : x ∈ OrderedSet.without s.members other) =>
      (mem_without.mp hx).1
    refine (inPlace_exact hproper (keepsOrder_of_sublist List.filter_sublist) (by simp)).trans ?_
    exact iff_of_true ⟨fun x => mem_without, rfl⟩ trivial

/-! ## 9. Runs -/

section Resolved

variable {objects : Objects α}

theorem Operand.resolve_proper (h : ∀ s ∈ objects, s.Proper) {operand : Operand α} {iterable : Iterable α}
    (hresolve : operand.resolve objects = some iterable) : iterable.Proper := by
  cases operand with
  | items yielded =>
    obtain rfl := Option.some.inj hresolve
    trivial
  | object index =>
    obtain ⟨s, hs, rfl⟩ := Option.map_eq_some_iff.mp hresolve
    exact h s (List.mem_of_getElem? hs)

theorem resolveAll_proper (h : ∀ s ∈ objects, s.Proper) : ∀ {operands : List (Operand α)}
    {iterables : List (Iterable α)}, resolveAll objects operands = some iterables →
    ∀ iterable ∈ iterables, iterable.Proper
  | [], iterables, hresolve => by
      obtain rfl := Option.some.inj hresolve
      simp
  | operand :: rest, iterables, hresolve => by
      rw [resolveAll] at hresolve
      obtain ⟨first, hfirst, hresolve⟩ := Option.bind_eq_some_iff.mp hresolve
      obtain ⟨others, hothers, hcons⟩ := Option.bind_eq_some_iff.mp hresolve
      obtain rfl := Option.some.inj hcons
      intro iterable hmem
      rcases List.mem_cons.mp hmem with rfl | hmem
      · exact Operand.resolve_proper h hfirst
      · exact resolveAll_proper h hothers iterable hmem

/-- The objects that a call is given are among the objects of the program. -/
theorem Method.resolve_proper (h : ∀ s ∈ objects, s.Proper) {method : Method α (Operand α)}
    {resolved : Method α (Iterable α)} (hresolve : method.resolve objects = some resolved) :
    ∀ iterable ∈ resolved.arguments, iterable.Proper := by
  have hall : ∀ {operands : List (Operand α)} {make : List (Iterable α) → Method α (Iterable α)},
      (∀ iterables, (make iterables).arguments = iterables) →
      (resolveAll objects operands).map make = some resolved →
      ∀ iterable ∈ resolved.arguments, iterable.Proper := by
    intro operands make harguments hmake
    obtain ⟨iterables, hiterables, rfl⟩ := Option.map_eq_some_iff.mp hmake
    rw [harguments]
    exact resolveAll_proper h hiterables
  have hone : ∀ {operand : Operand α} {make : Iterable α → Method α (Iterable α)},
      (∀ iterable, (make iterable).arguments = [iterable]) →
      (operand.resolve objects).map make = some resolved →
      ∀ iterable ∈ resolved.arguments, iterable.Proper := by
    intro operand make harguments hmake
    obtain ⟨iterable, hiterable, rfl⟩ := Option.map_eq_some_iff.mp hmake
    rw [harguments]
    intro _ hmem
    rw [List.mem_singleton.mp hmem]
    exact Operand.resolve_proper h hiterable
  have hempty : ∀ {plain : Method α (Iterable α)}, plain.arguments = [] → some plain = some resolved →
      ∀ iterable ∈ resolved.arguments, iterable.Proper := by
    intro plain harguments heq
    obtain rfl := Option.some.inj heq
    simp [harguments]
  cases method with
  | update iterables => exact hall (fun _ => rfl) hresolve
  | union other => exact hall (fun _ => rfl) hresolve
  | intersection other => exact hall (fun _ => rfl) hresolve
  | difference other => exact hall (fun _ => rfl) hresolve
  | intersectionUpdate other => exact hall (fun _ => rfl) hresolve
  | differenceUpdate other => exact hall (fun _ => rfl) hresolve
  | symmetricDifference other => exact hone (fun _ => rfl) hresolve
  | symmetricDifferenceUpdate other => exact hone (fun _ => rfl) hresolve
  | copy => exact hempty rfl hresolve
  | add element => exact hempty rfl hresolve
  | remove element => exact hempty rfl hresolve
  | pop => exact hempty rfl hresolve
  | insert pos element => exact hempty rfl hresolve
  | discard element => exact hempty rfl hresolve
  | clear => exact hempty rfl hresolve

end Resolved

/-- Every object of the program is in step. -/
def AllProper (objects : Objects α) : Prop :=
  ∀ s ∈ objects, s.Proper

theorem afterCall_proper {objects : Objects α} (h : AllProper objects) {index : Nat}
    (hindex : index < objects.length) (result : OrderedSet α × Returned (OrderedSet α) α) :
    AllProper (afterCall objects index result) ↔ InStep result := by
  have hset : ∀ receiver : OrderedSet α, AllProper (objects.set index receiver) ↔ receiver.Proper := by
    intro receiver
    constructor
    · exact fun hall => hall receiver (List.mem_set hindex receiver)
    · intro hreceiver s hs
      rcases List.mem_or_eq_of_mem_set hs with hs | rfl
      · exact h s hs
      · exact hreceiver
  obtain ⟨receiver, returned⟩ := result
  cases returned with
  | object made =>
    constructor
    · intro hall
      refine ⟨(hset receiver).mp fun s hs => hall s (List.mem_append_left _ hs), ?_⟩
      rintro _ ⟨rfl⟩
      exact hall made (List.mem_append_right _ (List.mem_singleton_self _))
    · intro hstep s hs
      rcases List.mem_append.mp hs with hs | hs
      · exact (hset receiver).mpr hstep.receiver s hs
      · exact List.mem_singleton.mp hs ▸ hstep.made made rfl
  | nothing => exact (hset receiver).trans ⟨fun h => ⟨h, by simp⟩, fun h => h.receiver⟩
  | value removed => exact (hset receiver).trans ⟨fun h => ⟨h, by simp⟩, fun h => h.receiver⟩
  | raised exception => exact (hset receiver).trans ⟨fun h => ⟨h, by simp⟩, fun h => h.receiver⟩

/-- **One step of a program**: it is faithful and leaves every object in step exactly when it is fine. -/
theorem action_exact {objects : Objects α} (h : AllProper objects) (action : Action α) :
    (FaithfulAction hash objects action ∧ ∀ after, step hash objects action = some after → AllProper after) ↔
      FineAction hash objects action := by
  cases action with
  | new values =>
    constructor
    · rintro ⟨hfaithful, _⟩ iterable hresolve
      rw [← OrderedSet.new_members_iff, (hfaithful iterable hresolve).1]
      refine Finset.ext fun x => ?_
      rw [List.mem_toFinset, Iterable.mem_iter (Operand.resolve_proper h hresolve)]
    · intro hfine
      refine ⟨fun iterable hresolve => ⟨?_, OrderedSet.new_keepsOrder hash _⟩, fun after hstep => ?_⟩
      · rw [(OrderedSet.new_members_iff hash _).mpr (hfine iterable hresolve)]
        refine Finset.ext fun x => ?_
        rw [List.mem_toFinset, Iterable.mem_iter (Operand.resolve_proper h hresolve)]
      · rw [step] at hstep
        obtain ⟨iterable, hresolve, hafter⟩ := Option.bind_eq_some_iff.mp hstep
        obtain rfl := Option.some.inj hafter
        intro s hs
        rcases List.mem_append.mp hs with hs | hs
        · exact h s hs
        · exact List.mem_singleton.mp hs ▸ OrderedSet.new_proper hash iterable.iter
  | call index method =>
    constructor
    · rintro ⟨hfaithful, hproper⟩ receiver resolved hreceiver hresolve
      have hindex : index < objects.length := (List.getElem?_eq_some_iff.mp hreceiver).1
      have hstep : step hash objects (.call index method) =
          some (afterCall objects index (receiver.call hash resolved)) := by
        simp [step, hreceiver, hresolve]
      refine (call_exact hash (h receiver (List.mem_of_getElem? hreceiver))
        (Method.resolve_proper h hresolve)).mp ⟨hfaithful receiver resolved hreceiver hresolve, ?_⟩
      exact (afterCall_proper h hindex _).mp (hproper _ hstep)
    · intro hfine
      have hexact : ∀ receiver resolved, objects[index]? = some receiver →
          method.resolve objects = some resolved →
          Faithful receiver resolved (receiver.call hash resolved) ∧ InStep (receiver.call hash resolved) :=
        fun receiver resolved hreceiver hresolve =>
          (call_exact hash (h receiver (List.mem_of_getElem? hreceiver))
            (Method.resolve_proper h hresolve)).mpr (hfine receiver resolved hreceiver hresolve)
      refine ⟨fun receiver resolved hreceiver hresolve => (hexact _ _ hreceiver hresolve).1, ?_⟩
      intro after hstep
      rw [step] at hstep
      obtain ⟨receiver, hreceiver, hstep⟩ := Option.bind_eq_some_iff.mp hstep
      obtain ⟨resolved, hresolve, hafter⟩ := Option.bind_eq_some_iff.mp hstep
      obtain rfl := Option.some.inj hafter
      have hindex : index < objects.length := (List.getElem?_eq_some_iff.mp hreceiver).1
      exact (afterCall_proper h hindex _).mpr (hexact _ _ hreceiver hresolve).2

/-- **An ordered set, as long as every operation is fine**: along every sequence of operations, the list and
    the set of every object hold the same elements, each once in the list, and every operation does what the
    built-in one does and keeps the order, exactly when every operation of the sequence is fine. -/
theorem ordered_iff_fine (actions : List (Action α)) :
    Always (step hash) AllProper [] actions ∧ Along (step hash) (FaithfulAction hash) [] actions ↔
      Along (step hash) (FineAction hash) [] actions :=
  Library.always_along_iff (fun _ action h => action_exact hash h action) actions [] (by simp [AllProper])

/-! ## 10. Where it drifts -/

namespace Sample

/-- `hash` of an int: it is never minus one. -/
def intHash (n : Int) : Int :=
  let hash := n.sign * (n.natAbs % (2 ^ 61 - 1))
  if hash = -1 then -2 else hash

/-- `OrderedSet([1, 2]).intersection([1], [2])`. -/
def ofAny : List (Action Int) :=
  [.new (.items [1, 2]), .call 0 (.intersection [.items [1], .items [2]])]

/-- `OrderedSet().symmetric_difference_update([5, 5])`. -/
def appendedTwice : List (Action Int) :=
  [.new (.items []), .call 0 (.symmetricDifferenceUpdate (.items [5, 5]))]

/-- `OrderedSet([-1, -2])`. -/
def sameHash : List (Action Int) :=
  [.new (.items [-1, -2])]

/-- The elements of one iterable or the other; a list with an element twice; and an element that is lost. -/
theorem three_runs_drift :
    ¬ (Always (step intHash) AllProper [] ofAny ∧ Along (step intHash) (FaithfulAction intHash) [] ofAny) ∧
    ¬ (Always (step intHash) AllProper [] appendedTwice ∧
        Along (step intHash) (FaithfulAction intHash) [] appendedTwice) ∧
    ¬ (Always (step intHash) AllProper [] sameHash ∧
        Along (step intHash) (FaithfulAction intHash) [] sameHash) := by
  refine ⟨?_, ?_, ?_⟩
  · rintro ⟨_, _, halong⟩
    obtain ⟨hfaithful, _⟩ := halong [OrderedSet.new intHash [1, 2]] rfl
    obtain ⟨_, made, hmade, hmem⟩ := (hfaithful (OrderedSet.new intHash [1, 2]) _ rfl rfl).builtin
    obtain rfl := (Returned.object.inj hmade).symm
    exact absurd ((hmem 1).mp (by decide)) (by decide)
  · rintro ⟨⟨_, halways⟩, _⟩
    have hlast := (halways [OrderedSet.new intHash []] rfl).2 [⟨[5, 5], {5}⟩] (by decide)
    exact absurd (hlast.first _ (List.mem_singleton_self _)).once (by decide)
  · rintro ⟨_, hfaithful, _⟩
    exact absurd (hfaithful _ rfl).1 (by decide)

end Sample

end Ceres.Utilities
