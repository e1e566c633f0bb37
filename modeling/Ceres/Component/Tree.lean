/-
  File:      Ceres/Component/Tree.lean
  Subject:   THE COMPONENT TREE (`component.py`: `ComponentSystem.attach`, `detach`, `contains`, the
             setters of `name` and `container`).

  A system knows its container and the children registered with it by name. The systems here have no
  engine.

  * `Tree`, `attach`, `detach`, `rename`, `setContainer`, `contains` -- as the source runs them, with
    what it raises;
  * `WellFormed` -- the two views agree and the way up ends;
  * `Right` -- what an operation should do;
  * `Calm` -- the operations that do it;
  * **`tree_stays_tree`** -- along calm operations the systems form trees, and each operation is right;
  * `attach_makes_cycle` -- a parent attached beneath its child.
-/
import Ceres.Library.Ascent
import Ceres.Library.Dict
import Ceres.Library.Run

namespace Ceres.Component

open Ceres.Library Ceres.Library.Ascent

set_option linter.unusedSectionVars false

variable {ι : Type} [DecidableEq ι] [Fintype ι]

/-! ## 1. The systems and their operations -/

structure Tree (ι : Type) where
  container : ι → Option ι
  children : ι → Dict String ι
  name : ι → String

/-- Systems without a container and without children. -/
def Tree.detached (name : ι → String) : Tree ι := ⟨fun _ => none, fun _ => [], name⟩

/-- What the operations raise. -/
inductive TreeError where
  /-- "component cannot contain itself" -/
  | containsItself
  /-- "child with name '...' already exists" -/
  | childExists (name : String)
  /-- "parent already has child named '...'" -/
  | nameTaken (name : String)
  /-- A walk through the tree that does not end: `RecursionError`. -/
  | recursion
  deriving DecidableEq

/-- The tree an operation leaves, and what it raised. -/
structure Outcome (ι : Type) where
  tree : Tree ι
  error : Option TreeError

namespace Tree

/-- `get_ancestor_components`, cut off where it would go round. -/
def ancestors (t : Tree ι) (x : ι) : List ι := follow t.container (Fintype.card ι) (t.container x)

def root (t : Tree ι) (x : ι) : ι := (t.ancestors x).getLastD x

/-- A walk up the containers comes to an end: more steps than there are systems go round. -/
def ascends (t : Tree ι) : Nat → Option ι → Bool
  | _, none => true
  | 0, some _ => false
  | n + 1, some p => t.ascends n (t.container p)

/-- A walk down the children comes to an end. -/
def descends (t : Tree ι) : Nat → ι → Bool
  | 0, _ => false
  | n + 1, x => (t.children x).values.all (t.descends n)

/-- `__propagate_tree_change` looks for the engine above and walks the whole tree from its root. -/
def propagates (t : Tree ι) (x : ι) : Bool :=
  t.ascends (Fintype.card ι) (t.container x) && t.descends (Fintype.card ι) (t.root x)

def raiseUnless (ok : Bool) (t : Tree ι) : Outcome ι := ⟨t, if ok then none else some .recursion⟩

/-- The loop of `contains`, `none` when it goes round. -/
def containsLoop (t : Tree ι) (system : ι) : Nat → Option ι → Option Bool
  | _, none => some false
  | 0, some _ => none
  | n + 1, some current =>
    if current = system then some true else t.containsLoop system n (t.container current)

/-- The loop compares with the system it started from, not with the one that was asked. -/
def contains (t : Tree ι) (_self component : ι) (inclusive : Bool) : Option Bool :=
  t.containsLoop component (Fintype.card ι + 1)
    (if inclusive then some component else t.container component)

/-- A system leaves the map of its container. -/
def cut (t : Tree ι) (x p : ι) : Tree ι :=
  { t with
    container := Function.update t.container x none
    children := Function.update t.children p ((t.children p).erase (t.name x)) }

/-- The tree without the registration of a system: what `detach` leaves of a tree. -/
def released (t : Tree ι) (x : ι) : Tree ι :=
  match t.container x with
  | none => t
  | some p => t.cut x p

def detach (t : Tree ι) (x : ι) : Outcome ι :=
  match t.container x with
  | none => ⟨t, none⟩
  | some p =>
    if (t.children p).get (t.name x) = some x then
      -- the address is read before the system is taken out, and walks up
      if t.ascends (Fintype.card ι) (t.container x) then
        raiseUnless ((t.cut x p).propagates x && (t.cut x p).propagates p) (t.cut x p)
      else ⟨{ t with container := Function.update t.container x none }, some .recursion⟩
    else ⟨{ t with container := Function.update t.container x none }, none⟩

/-- The name a child is attached under. -/
def childName (t : Tree ι) (child : ι) (name : Option String) : String :=
  (name.filter (· ≠ "")).getD (t.name child)

/-- A system without a container is named and registered. -/
def link (t : Tree ι) (p x : ι) (name : String) : Tree ι where
  container := Function.update t.container x (some p)
  children := Function.update t.children p ((t.children p).set name x)
  name := Function.update t.name x name

def attach (t : Tree ι) (parent child : ι) (name : Option String) : Option (Outcome ι) :=
  if child = parent then some ⟨t, some .containsItself⟩
  else
    (t.contains parent child false).map fun contained =>
      if contained then ⟨t, some .containsItself⟩
      else
        let name := t.childName child name
        let ⟨t, error⟩ := t.detach child
        if error.isSome then ⟨t, error⟩
        else if (t.children parent).get name ≠ none then ⟨t, some (.childExists name)⟩
        else raiseUnless ((t.link parent child name).propagates parent) (t.link parent child name)

/-- A registration moves to a new name. -/
def renamed (t : Tree ι) (x p : ι) (name : String) : Tree ι :=
  { t with
    name := Function.update t.name x name
    children := Function.update t.children p (((t.children p).erase (t.name x)).set name x) }

def rename (t : Tree ι) (x : ι) (name : String) : Outcome ι :=
  match t.container x with
  | none => ⟨{ t with name := Function.update t.name x name }, none⟩
  | some p =>
    if name = t.name x then ⟨t, none⟩
    else if name ∈ (t.children p).keys then ⟨t, some (.nameTaken name)⟩
    else raiseUnless ((t.renamed x p name).propagates x) (t.renamed x p name)

def setContainer (t : Tree ι) (x : ι) (container : Option ι) : Option (Outcome ι) :=
  let t := { t with container := Function.update t.container x container }
  match container with
  | none => some ⟨t, none⟩
  | some p => if (t.children p).get (t.name x) = some x then some ⟨t, none⟩ else t.attach p x none

end Tree

inductive TreeAction (ι : Type) where
  | attach (parent child : ι) (name : Option String)
  | detach (x : ι)
  | rename (x : ι) (name : String)
  | setContainer (x : ι) (container : Option ι)
  | contains (self component : ι) (inclusive : Bool)

/-- What an operation does, `none` when it does not return. -/
def Tree.perform (t : Tree ι) : TreeAction ι → Option (Outcome ι)
  | .attach parent child name => t.attach parent child name
  | .detach x => some (t.detach x)
  | .rename x name => some (t.rename x name)
  | .setContainer x container => t.setContainer x container
  | .contains self component inclusive =>
    (t.contains self component inclusive).map fun _ => ⟨t, none⟩

def Tree.step (t : Tree ι) (a : TreeAction ι) : Option (Tree ι) := (t.perform a).map Outcome.tree

/-! ## 2. Trees -/

/-- Each system with a container is registered once, with its container and under its own name, and
    the way up ends. -/
structure WellFormed (t : Tree ι) : Prop where
  keys : ∀ p, (t.children p).keys.Nodup
  registered : ∀ p name x, (name, x) ∈ t.children p ↔ t.container x = some p ∧ t.name x = name
  ends : ∀ x, Ends t.container x

def Tree.Taken (t : Tree ι) (parent child : ι) (name : String) : Prop :=
  ∃ other, other ≠ child ∧ (t.children parent).get name = some other

/-- What an operation should do. -/
structure Right (t : Tree ι) (a : TreeAction ι) : Prop where
  /-- It returns, and when it raises it leaves everything as it was. -/
  unchanged : ∃ outcome, t.perform a = some outcome ∧ (outcome.error.isSome → outcome.tree = t)
  attach : ∀ parent child name, a = .attach parent child name →
    ∀ outcome, t.perform a = some outcome → (outcome.error.isSome ↔
      child = parent ∨ Above t.container child parent ∨
        t.Taken parent child (t.childName child name))
  contains : ∀ self component inclusive, a = .contains self component inclusive →
    ∃ answer, t.contains self component inclusive = some answer ∧
      (answer = true ↔ Above t.container self component ∨ inclusive = true ∧ self = component)

/-- The operations that do what they should. -/
def Calm (t : Tree ι) : TreeAction ι → Prop
  | .attach parent child name => child = parent ∨ child ∉ t.ancestors parent ∧
      (t.container child = none ∨ ¬ t.Taken parent child (t.childName child name))
  | .setContainer x none => t.container x = none
  | .setContainer x (some p) =>
      t.container x = some p ∨ t.container x = none ∧ x ≠ p ∧ x ∉ t.ancestors p
  | .contains self component inclusive =>
      if inclusive then self = component ∨ self ∈ t.ancestors component
      else self ∉ t.ancestors component
  | _ => True

instance (t : Tree ι) (parent child : ι) (name : String) : Decidable (t.Taken parent child name) := by
  unfold Tree.Taken
  infer_instance

instance (t : Tree ι) : ∀ a : TreeAction ι, Decidable (Calm t a)
  | .attach .. => by unfold Calm; infer_instance
  | .detach _ => by unfold Calm; infer_instance
  | .rename .. => by unfold Calm; infer_instance
  | .setContainer _ none => by unfold Calm; infer_instance
  | .setContainer _ (some _) => by unfold Calm; infer_instance
  | .contains .. => by unfold Calm; infer_instance

theorem wellFormed_detached (name : ι → String) : WellFormed (Tree.detached name) := by
  refine ⟨fun p => ?_, fun p n x => ?_, fun x => Ends.of_none rfl⟩
  · exact List.nodup_nil
  · simp [Tree.detached]

/-- A walk up that does not meet the system it is looking for. -/
theorem containsLoop_eq {t : Tree ι} {component y : ι} {l : List ι} {n : Nat}
    (hl : Chain t.container y l) (hnot : component ∉ l) (hn : l.length ≤ n) :
    t.containsLoop component n (t.container y) = some false := by
  induction l generalizing y n with
  | nil =>
    have hnone : t.container y = none := hl
    rw [hnone]
    cases n <;> rfl
  | cons p l ih =>
    rw [hl.1]
    cases n with
    | zero => simp at hn
    | succ n =>
      have hne : p ≠ component := fun heq => hnot (heq ▸ List.mem_cons_self)
      rw [Tree.containsLoop, if_neg hne]
      exact ih hl.2 (fun hmem => hnot (List.mem_cons_of_mem _ hmem)) (Nat.le_of_succ_le_succ hn)

namespace WellFormed

variable {t : Tree ι}

theorem mem_ancestors (h : WellFormed t) {a x : ι} : a ∈ t.ancestors x ↔ Above t.container a x := by
  obtain ⟨l, hl⟩ := h.ends x
  rw [Tree.ancestors, hl.follow_eq hl.length_lt.le]
  exact hl.mem_iff

theorem get_children (h : WellFormed t) {p x : ι} (hx : t.container x = some p) :
    (t.children p).get (t.name x) = some x :=
  Dict.get_of_mem (h.keys p) ((h.registered p _ x).mpr ⟨hx, rfl⟩)

theorem ascends (h : WellFormed t) (x : ι) : t.ascends (Fintype.card ι) (t.container x) = true := by
  have hwalk : ∀ (l : List ι) (y : ι) (n : Nat), Chain t.container y l → l.length ≤ n →
      t.ascends n (t.container y) = true := by
    intro l
    induction l with
    | nil =>
      intro y n hy _
      have hnone : t.container y = none := hy
      rw [hnone]
      cases n <;> rfl
    | cons p l ih =>
      intro y n hy hn
      rw [hy.1]
      cases n with
      | zero => simp at hn
      | succ n => exact ih p n hy.2 (Nat.le_of_succ_le_succ hn)
  obtain ⟨l, hl⟩ := h.ends x
  exact hwalk l x _ hl hl.length_lt.le

/-- Each step down makes the way up longer, so a walk down is short. -/
theorem descends_of_chain (h : WellFormed t) (n : Nat) (x : ι) (l : List ι)
    (hl : Chain t.container x l) (hn : Fintype.card ι ≤ l.length + n) : t.descends n x = true := by
  induction n generalizing x l with
  | zero => exact absurd hl.length_lt (by omega)
  | succ n ih =>
    rw [Tree.descends, List.all_eq_true]
    intro child hchild
    obtain ⟨⟨name, same⟩, hmem, rfl⟩ := List.mem_map.mp hchild
    have hcontainer := ((h.registered x name same).mp hmem).1
    refine ih same (x :: l) ⟨hcontainer, hl⟩ ?_
    rw [List.length_cons]
    omega

theorem propagates (h : WellFormed t) (x : ι) : t.propagates x = true := by
  obtain ⟨l, hl⟩ := h.ends (t.root x)
  have hdown := h.descends_of_chain (Fintype.card ι) (t.root x) l hl (Nat.le_add_left _ _)
  rw [Tree.propagates, h.ascends, hdown]
  rfl

/-- **What `contains` answers**: whether it was asked inclusively. -/
theorem contains_eq (h : WellFormed t) (self component : ι) (inclusive : Bool) :
    t.contains self component inclusive = some inclusive := by
  unfold Tree.contains
  cases inclusive with
  | true => simp [Tree.containsLoop]
  | false =>
    obtain ⟨l, hl⟩ := h.ends component
    exact containsLoop_eq hl hl.not_mem_self (hl.length_lt.le.trans (Nat.le_succ _))

theorem cut (h : WellFormed t) {x p : ι} (hx : t.container x = some p) : WellFormed (t.cut x p) := by
  refine ⟨fun q => ?_, fun q name y => ?_, fun y => (h.ends y).cut⟩
  · by_cases hq : q = p
    · subst hq
      simp only [Tree.cut, Function.update_self]
      exact Dict.nodup_keys_erase (h.keys q) _
    · simp only [Tree.cut, Function.update_of_ne hq]
      exact h.keys q
  · simp only [Tree.cut]
    by_cases hq : q = p
    · subst hq
      rw [Function.update_self, Dict.mem_erase, h.registered]
      by_cases hy : y = x
      · subst hy
        rw [Function.update_self]
        constructor
        · intro hmem
          exact absurd hmem.1.2.symm hmem.2
        · intro hnone
          exact absurd hnone.1 (by simp)
      · rw [Function.update_of_ne hy]
        constructor
        · exact fun hmem => hmem.1
        · intro hmem
          refine ⟨hmem, fun hname => hy ?_⟩
          -- two children of one system do not share a name
          have hmine := h.get_children hx
          have hother := h.get_children hmem.1
          rw [hmem.2, show name = t.name x from hname] at hother
          exact Option.some.inj (hother.symm.trans hmine)
    · rw [Function.update_of_ne hq, h.registered]
      by_cases hy : y = x
      · subst hy
        rw [Function.update_self, hx]
        simp [Ne.symm hq]
      · rw [Function.update_of_ne hy]

/-- **`detach`** of a system in a tree. -/
theorem detach_eq (h : WellFormed t) {x p : ι} (hx : t.container x = some p) :
    t.detach x = ⟨t.cut x p, none⟩ := by
  have hcut := h.cut hx
  have hup := h.ascends x
  rw [hx] at hup
  simp only [Tree.detach, hx, h.get_children hx, hup, if_true, hcut.propagates, Bool.and_self,
    Tree.raiseUnless]

theorem link (h : WellFormed t) {p x : ι} {name : String} (hx : t.container x = none)
    (hfree : (t.children p).get name = none) (hne : x ≠ p) (hnot : ¬ Above t.container x p) :
    WellFormed (t.link p x name) := by
  have hfree := Dict.get_eq_none_iff.mp hfree
  refine ⟨fun q => ?_, fun q other y => ?_, fun y => Ends.link hx (h.ends p) hne hnot (h.ends y)⟩
  · by_cases hq : q = p
    · subst hq
      simp only [Tree.link, Function.update_self, Dict.set_of_absent hfree]
      exact Dict.nodup_keys_append (h.keys q) hfree
    · simp only [Tree.link, Function.update_of_ne hq]
      exact h.keys q
  · simp only [Tree.link]
    by_cases hy : y = x
    · subst hy
      rw [Function.update_self, Function.update_self]
      have hold : ∀ q other, (other, y) ∉ t.children q := by
        intro q other hmem
        have hsome := ((h.registered q other y).mp hmem).1
        exact absurd (hx.symm.trans hsome) (by simp)
      by_cases hq : q = p
      · subst hq
        rw [Function.update_self, Dict.set_of_absent hfree]
        simp [hold, eq_comm]
      · rw [Function.update_of_ne hq]
        simp [hold, Ne.symm hq]
    · rw [Function.update_of_ne hy, Function.update_of_ne hy, ← h.registered]
      by_cases hq : q = p
      · subst hq
        rw [Function.update_self, Dict.set_of_absent hfree]
        simp [hy]
      · rw [Function.update_of_ne hq]

theorem renamed (h : WellFormed t) {x p : ι} {name : String} (hx : t.container x = some p)
    (hfree : name ∉ (t.children p).keys) : WellFormed (t.renamed x p name) := by
  have hfree' : name ∉ ((t.children p).erase (t.name x)).keys := by
    intro hmem
    obtain ⟨entry, hentry, rfl⟩ := List.mem_map.mp hmem
    exact hfree (Dict.mem_keys_of_mem (Dict.mem_erase.mp hentry).1)
  refine ⟨fun q => ?_, fun q other y => ?_, h.ends⟩
  · by_cases hq : q = p
    · subst hq
      simp only [Tree.renamed, Function.update_self, Dict.set_of_absent hfree']
      exact Dict.nodup_keys_append (Dict.nodup_keys_erase (h.keys q) _) hfree'
    · simp only [Tree.renamed, Function.update_of_ne hq]
      exact h.keys q
  · simp only [Tree.renamed]
    have hcut := (h.cut hx).registered q other y
    simp only [Tree.cut] at hcut
    by_cases hq : q = p
    · subst hq
      rw [Function.update_self] at hcut ⊢
      rw [Dict.set_of_absent hfree', List.mem_append, hcut, List.mem_singleton, Prod.mk.injEq]
      by_cases hy : y = x
      · subst hy
        simp [hx, eq_comm]
      · simp [hy]
    · rw [Function.update_of_ne hq] at hcut ⊢
      rw [hcut]
      by_cases hy : y = x
      · subst hy
        simp [hx, Ne.symm hq]
      · simp [hy]

end WellFormed

/-! ## 3. The operations keep the tree -/

theorem get_cut {t : Tree ι} (h : WellFormed t) {child p : ι} (hchild : t.container child = some p)
    (parent : ι) (name : String) :
    ((t.cut child p).children parent).get name = none ↔ ¬ t.Taken parent child name := by
  have hmine := h.get_children hchild
  have hcut : ∀ other, ((t.cut child p).children parent).get name = some other ↔
      other ≠ child ∧ (t.children parent).get name = some other := by
    intro other
    by_cases hq : parent = p
    · subst hq
      simp only [Tree.cut, Function.update_self]
      rw [Dict.get_erase]
      by_cases hname : t.name child = name
      · subst hname
        rw [if_pos rfl, hmine]
        simp [eq_comm]
      · rw [if_neg hname]
        refine ⟨fun hget => ⟨?_, hget⟩, And.right⟩
        intro heq
        subst heq
        exact hname ((h.registered parent name other).mp (Dict.mem_of_get hget)).2
    · simp only [Tree.cut, Function.update_of_ne hq]
      refine ⟨fun hget => ⟨?_, hget⟩, And.right⟩
      intro heq
      subst heq
      have hsome := ((h.registered parent name other).mp (Dict.mem_of_get hget)).1
      exact hq (Option.some.inj (hsome.symm.trans hchild))
  rw [Option.eq_none_iff_forall_ne_some, Tree.Taken, not_exists]
  exact forall_congr' fun other => not_congr (hcut other)

theorem get_free {t : Tree ι} (h : WellFormed t) {child : ι} (hchild : t.container child = none)
    (parent : ι) (name : String) : (t.children parent).get name = none ↔ ¬ t.Taken parent child name := by
  rw [Option.eq_none_iff_forall_ne_some, Tree.Taken, not_exists]
  refine forall_congr' fun other => not_congr ⟨fun hget => ⟨?_, hget⟩, And.right⟩
  intro heq
  subst heq
  have hsome := ((h.registered parent name other).mp (Dict.mem_of_get hget)).1
  exact absurd (hchild.symm.trans hsome) (by simp)

theorem released_of_none {t : Tree ι} {x : ι} (hx : t.container x = none) : t.released x = t := by
  simp [Tree.released, hx]

theorem released_of_some {t : Tree ι} {x p : ι} (hx : t.container x = some p) : t.released x = t.cut x p := by
  simp [Tree.released, hx]

theorem container_released (t : Tree ι) (x : ι) : (t.released x).container x = none := by
  cases hx : t.container x with
  | none => rw [released_of_none hx, hx]
  | some p =>
    rw [released_of_some hx]
    exact Function.update_self ..

theorem above_of_released {t : Tree ι} {x a b : ι} (h : Above (t.released x).container a b) :
    Above t.container a b := by
  cases hx : t.container x with
  | none => rwa [released_of_none hx] at h
  | some p =>
    rw [released_of_some hx] at h
    exact Above.of_cut h

theorem WellFormed.released {t : Tree ι} (h : WellFormed t) (x : ι) : WellFormed (t.released x) := by
  cases hx : t.container x with
  | none => rwa [released_of_none hx]
  | some p =>
    rw [released_of_some hx]
    exact h.cut hx

/-- **`detach`** takes the registration away and raises nothing. -/
theorem detach_released {t : Tree ι} (h : WellFormed t) (x : ι) : t.detach x = ⟨t.released x, none⟩ := by
  cases hx : t.container x with
  | none => simp [Tree.detach, released_of_none hx, hx]
  | some p => rw [released_of_some hx, h.detach_eq hx]

theorem get_released {t : Tree ι} (h : WellFormed t) (child parent : ι) (name : String) :
    ((t.released child).children parent).get name = none ↔ ¬ t.Taken parent child name := by
  cases hchild : t.container child with
  | none => rw [released_of_none hchild, get_free h hchild]
  | some p => rw [released_of_some hchild, get_cut h hchild]

/-- **`attach`** of a child that is not above the parent: the registration moves, unless another child
    has the name. -/
theorem attach_eq {t : Tree ι} (h : WellFormed t) {parent child : ι} (name : Option String)
    (hne : child ≠ parent) (hnot : ¬ Above t.container child parent) : t.attach parent child name = some
      (if ((t.released child).children parent).get (t.childName child name) ≠ none then
        ⟨t.released child, some (.childExists (t.childName child name))⟩
      else ⟨(t.released child).link parent child (t.childName child name), none⟩) := by
  unfold Tree.attach
  rw [if_neg hne, h.contains_eq, Option.map_some]
  simp only [detach_released h, Bool.false_eq_true, if_false, Option.isSome_none]
  by_cases hget : ((t.released child).children parent).get (t.childName child name) = none
  · have hlink := (h.released child).link (container_released t child) hget hne
      fun habove => hnot (above_of_released habove)
    rw [if_neg (fun hsome => hsome hget), if_neg (fun hsome => hsome hget), hlink.propagates]
    rfl
  · rw [if_pos hget, if_pos hget]

theorem attach_spec {t : Tree ι} (h : WellFormed t) {parent child : ι} (name : Option String)
    (hne : child ≠ parent) (hnot : ¬ Above t.container child parent) :
    ∃ outcome, t.attach parent child name = some outcome ∧ WellFormed outcome.tree ∧
      (outcome.error.isSome ↔ t.Taken parent child (t.childName child name)) ∧
      (outcome.error.isSome → t.container child = none → outcome.tree = t) := by
  refine ⟨_, attach_eq h name hne hnot, ?_⟩
  have hget := get_released h child parent (t.childName child name)
  by_cases htaken : t.Taken parent child (t.childName child name)
  · rw [if_pos (fun hnone => hget.mp hnone htaken)]
    exact ⟨h.released child, by simpa using htaken, fun _ hnone => released_of_none hnone⟩
  · rw [if_neg (fun hsome => hsome (hget.mpr htaken))]
    refine ⟨?_, by simpa using htaken, by simp⟩
    exact (h.released child).link (container_released t child) (hget.mpr htaken) hne
      fun habove => hnot (above_of_released habove)

theorem rename_spec {t : Tree ι} (h : WellFormed t) (x : ι) (name : String) :
    WellFormed (t.rename x name).tree ∧ ((t.rename x name).error.isSome → (t.rename x name).tree = t) := by
  unfold Tree.rename
  cases hx : t.container x with
  | none =>
    refine ⟨⟨h.keys, fun p other y => ?_, h.ends⟩, by simp⟩
    by_cases hy : y = x
    · subst hy
      simp [h.registered, hx]
    · simp [h.registered, hy]
  | some p =>
    by_cases hsame : name = t.name x
    · simp only [if_pos hsame]
      exact ⟨h, by simp⟩
    · by_cases htaken : name ∈ (t.children p).keys
      · simp only [if_neg hsame, if_pos htaken]
        exact ⟨h, by simp⟩
      · have hrenamed := h.renamed hx htaken
        simp only [if_neg hsame, if_neg htaken, hrenamed.propagates]
        exact ⟨hrenamed, by simp [Tree.raiseUnless]⟩

/-- **A container is assigned** to a system that has none: `attach` takes it away again before it
    registers the system. -/
theorem setContainer_eq {t : Tree ι} (h : WellFormed t) {x p : ι} (hx : t.container x = none)
    (hne : x ≠ p) (hnot : ¬ Above t.container x p) : t.setContainer x (some p) = t.attach p x none := by
  have hback : Function.update (Function.update t.container x (some p)) x none = t.container := by
    rw [Function.update_idem, ← hx, Function.update_eq_self]
  have hget : (t.children p).get (t.name x) ≠ some x := by
    intro hget
    have hsome := ((h.registered p _ x).mp (Dict.mem_of_get hget)).1
    exact absurd (hx.symm.trans hsome) (by simp)
  obtain ⟨above, habove⟩ := h.ends p
  have hfree : x ∉ p :: above := by
    intro hmem
    rcases List.mem_cons.mp hmem with heq | hmem
    · exact hne heq
    · exact hnot (habove.mem_iff.mp hmem)
  have hchain : Chain (Function.update t.container x (some p)) x (p :: above) :=
    ⟨Function.update_self .., habove.update hfree⟩
  have hcontains : Tree.contains { t with container := Function.update t.container x (some p) } p x
      false = some false :=
    containsLoop_eq hchain hfree (Nat.succ_le_succ habove.length_lt.le)
  simp only [Tree.setContainer, if_neg hget]
  unfold Tree.attach
  rw [if_neg hne, if_neg hne, h.contains_eq, hcontains]
  simp only [Tree.detach, hx, Function.update_self, if_neg hget, hback, Tree.childName]
  rfl

/-- An operation is right that is neither `attach` nor `contains`, when it leaves everything as it was
    if it raises. -/
theorem Right.of_unchanged {t : Tree ι} {a : TreeAction ι} {outcome : Outcome ι}
    (hperform : t.perform a = some outcome) (hunchanged : outcome.error.isSome → outcome.tree = t)
    (hattach : ∀ parent child name, a ≠ .attach parent child name)
    (hcontains : ∀ self component inclusive, a ≠ .contains self component inclusive) : Right t a :=
  ⟨⟨outcome, hperform, hunchanged⟩, fun _ _ _ heq => absurd heq (hattach _ _ _),
    fun _ _ _ heq => absurd heq (hcontains _ _ _)⟩

theorem attach_right {t : Tree ι} (h : WellFormed t) {parent child : ι} {name : Option String}
    (hcalm : Calm t (.attach parent child name)) : Right t (.attach parent child name) ∧
      ∀ outcome, t.attach parent child name = some outcome → WellFormed outcome.tree := by
  by_cases heq : child = parent
  · have hattach : t.attach parent child name = some ⟨t, some .containsItself⟩ := if_pos heq
    refine ⟨⟨⟨_, hattach, fun _ => rfl⟩, ?_, by simp⟩, ?_⟩
    · intro _ _ _ haction outcome houtcome
      obtain ⟨rfl, rfl, rfl⟩ := TreeAction.attach.inj haction
      obtain rfl := Option.some.inj (hattach.symm.trans houtcome)
      simp [heq]
    · intro outcome houtcome
      obtain rfl := Option.some.inj (hattach.symm.trans houtcome)
      exact h
  · obtain ⟨hnot, hcalm⟩ := hcalm.resolve_left heq
    rw [h.mem_ancestors] at hnot
    obtain ⟨outcome, hattach, hwf, herror, hsame⟩ := attach_spec h name heq hnot
    refine ⟨⟨⟨outcome, hattach, fun hsome => hsame hsome ?_⟩, ?_, by simp⟩, ?_⟩
    · exact hcalm.resolve_right fun hfree => hfree (herror.mp hsome)
    · intro _ _ _ haction other hother
      obtain ⟨rfl, rfl, rfl⟩ := TreeAction.attach.inj haction
      obtain rfl := Option.some.inj (hattach.symm.trans hother)
      rw [herror]
      simp [heq, hnot]
    · intro other hother
      obtain rfl := Option.some.inj (hattach.symm.trans hother)
      exact hwf

theorem setContainer_right {t : Tree ι} (h : WellFormed t) {x : ι} {container : Option ι}
    (hcalm : Calm t (.setContainer x container)) :
    ∃ outcome, t.setContainer x container = some outcome ∧ WellFormed outcome.tree ∧
      (outcome.error.isSome → outcome.tree = t) := by
  have hstay : t.container x = container →
      ({ t with container := Function.update t.container x container } : Tree ι) = t := by
    intro heq
    rw [← heq, Function.update_eq_self]
  cases container with
  | none =>
    refine ⟨⟨t, none⟩, ?_, h, fun _ => rfl⟩
    rw [Tree.setContainer, hstay hcalm]
  | some p =>
    rcases hcalm with heq | ⟨hx, hne, hnot⟩
    · refine ⟨⟨t, none⟩, ?_, h, fun _ => rfl⟩
      rw [Tree.setContainer, hstay heq]
      exact if_pos (h.get_children heq)
    · rw [h.mem_ancestors] at hnot
      obtain ⟨outcome, hattach, hwf, _, hsame⟩ := attach_spec h none hne hnot
      rw [setContainer_eq h hx hne hnot]
      exact ⟨outcome, hattach, hwf, fun hsome => hsame hsome hx⟩

theorem contains_right {t : Tree ι} (h : WellFormed t) {self component : ι} {inclusive : Bool}
    (hcalm : Calm t (.contains self component inclusive)) : Right t (.contains self component inclusive) := by
  have hperform : t.perform (.contains self component inclusive) = some ⟨t, none⟩ := by
    simp [Tree.perform, h.contains_eq]
  refine ⟨⟨_, hperform, fun _ => rfl⟩, by simp, ?_⟩
  intro _ _ _ haction
  obtain ⟨rfl, rfl, rfl⟩ := TreeAction.contains.inj haction
  refine ⟨inclusive, h.contains_eq _ _ _, ?_⟩
  cases inclusive with
  | true =>
    have hcalm : self = component ∨ self ∈ t.ancestors component := hcalm
    rw [h.mem_ancestors] at hcalm
    simp only [true_and, true_iff]
    exact hcalm.symm
  | false =>
    have hcalm : self ∉ t.ancestors component := hcalm
    rw [h.mem_ancestors] at hcalm
    simp [hcalm]

/-- **One operation.** -/
theorem perform_spec {t : Tree ι} (h : WellFormed t) {a : TreeAction ι} (hcalm : Calm t a) :
    Right t a ∧ ∀ outcome, t.perform a = some outcome → WellFormed outcome.tree := by
  cases a with
  | attach parent child name => exact attach_right h hcalm
  | detach x =>
    have hperform : t.perform (.detach x) = some ⟨t.released x, none⟩ := congrArg some (detach_released h x)
    refine ⟨Right.of_unchanged hperform (by simp) (by simp) (by simp), ?_⟩
    intro outcome houtcome
    exact Option.some.inj (hperform.symm.trans houtcome) ▸ h.released x
  | rename x name =>
    obtain ⟨hwf, hsame⟩ := rename_spec h x name
    refine ⟨Right.of_unchanged rfl hsame (by simp) (by simp), ?_⟩
    intro outcome houtcome
    exact Option.some.inj houtcome ▸ hwf
  | setContainer x container =>
    obtain ⟨outcome, hset, hwf, hsame⟩ := setContainer_right h hcalm
    refine ⟨Right.of_unchanged hset hsame (by simp) (by simp), ?_⟩
    intro other hother
    exact Option.some.inj (hset.symm.trans hother) ▸ hwf
  | contains self component inclusive =>
    refine ⟨contains_right h hcalm, ?_⟩
    intro outcome houtcome
    obtain ⟨_, _, rfl⟩ := Option.map_eq_some_iff.mp houtcome
    exact h

theorem step_wellFormed (t : Tree ι) (a : TreeAction ι) (t' : Tree ι) (h : WellFormed t)
    (hcalm : Calm t a) (hstep : t.step a = some t') : WellFormed t' := by
  obtain ⟨outcome, houtcome, rfl⟩ := Option.map_eq_some_iff.mp hstep
  exact (perform_spec h hcalm).2 outcome houtcome

/-- **The component tree stays a tree.** In a run in which no system is attached above itself, none
    that has a container is attached under a taken name or given another container, the two views
    agree after every operation and the way up ends; and each such operation does what it should. -/
theorem tree_stays_tree (name : ι → String) (actions : List (TreeAction ι)) (t : Tree ι)
    (hcalm : Along Tree.step Calm (Tree.detached name) actions)
    (hrun : run Tree.step (Tree.detached name) actions = some t) :
    WellFormed t ∧ ∀ a, Calm t a → Right t a := by
  have h := run_inv step_wellFormed actions _ t (wellFormed_detached name) hcalm hrun
  exact ⟨h, fun a ha => (perform_spec h ha).1⟩

/-- Three systems: the second and the third are attached beneath the first, the third is moved beneath
    the second and renamed. -/
def treeRun : List (TreeAction (Fin 3)) :=
  [.attach 0 1 (some "b"), .setContainer 2 (some 0), .attach 1 2 none, .rename 2 "d",
    .contains 0 1 true]

theorem tree_stays_tree_treeRun :
    Along Tree.step Calm (Tree.detached fun _ => "a") treeRun ∧
      ∃ t, run Tree.step (Tree.detached fun _ => "a") treeRun = some t ∧
        t.children 1 = [("d", 2)] ∧ WellFormed t := by
  refine ⟨by decide, _, rfl, by decide, ?_⟩
  exact (tree_stays_tree (fun _ => "a") treeRun _ (by decide) rfl).1

/-- **A parent attached beneath its child.** `attach` asks whether the parent contains the child, of a
    `contains` that looks for neither, so each of the two ends up in the other. -/
theorem attach_makes_cycle :
    ¬ ∀ (actions : List (TreeAction (Fin 2))) (t : Tree (Fin 2)),
      run Tree.step (Tree.detached fun _ => "a") actions = some t → WellFormed t := by
  intro h
  have hends := (h [.attach 0 1 none, .attach 1 0 none] _ rfl).ends 0
  refine hends.not_above_self (.head (b := 1) ?_ (.single ?_))
  · decide
  · decide

end Ceres.Component
