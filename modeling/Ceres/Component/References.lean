/-
  File:      Ceres/Component/References.lean
  Subject:   WHO REFERS TO A COMPONENT (`component.py`: `__propagate_tree_change`, `sync_references`,
             `get_referenced_components`, `get_referencing_components`; `reference.py`).

  A system has references, addresses that resolve against the tree as it stands, and keeps in
  `_referencers` the systems that refer to it. When the tree changes the systems beneath the root are
  told, one after the other, and each puts its part of that record right.

  * `Tree.getComponent`, `targets` -- how a reference resolves;
  * `State`, `syncReferences`, `step` -- the record and the operations that change the tree;
  * `mem_tell` -- what telling a list of systems leaves in the record, whatever their order;
  * `Exact`, `Calm` -- the record is right, and the operations that keep it so;
  * **`referencers_exact`** -- along calm operations the record is right, and the recursive walk over it
    ends where no cycle of references is met, with the components that depend on the one asked;
  * `root_not_told` -- a reference of the root.
-/
import Ceres.Component.Tree
import Ceres.Library.Closure

namespace Ceres.Component

open Ceres.Library Ceres.Library.Ascent

set_option linter.unusedSectionVars false

/-- An address, from the root of the tree or beneath the system that holds it; `~` is the absolute
    one without a name. -/
structure DynamicAddress where
  absolute : Bool
  names : List String
  deriving DecidableEq

variable {ι : Type} [DecidableEq ι] [Fintype ι]

/-! ## 1. References -/

def Tree.walkDown (t : Tree ι) : List String → ι → Option ι
  | [], x => some x
  | name :: names, x => ((t.children x).get name).bind (t.walkDown names)

/-- `get_component` of a system without an engine: the first name of an absolute address is that of the
    root itself. -/
def Tree.getComponent (t : Tree ι) (x : ι) (address : DynamicAddress) : Option ι :=
  if address.absolute then
    match address.names with
    | [] => some (t.root x)
    | name :: names => if name = t.name (t.root x) then t.walkDown names (t.root x) else none
  else t.walkDown address.names x

/-- The systems beneath another, from the top down. -/
def Tree.beneath (t : Tree ι) : Nat → ι → List ι
  | 0, _ => []
  | n + 1, x => (t.children x).values.flatMap fun child => child :: t.beneath n child

/-- The systems that `__propagate_tree_change` tells: `get_components` leaves out the root. -/
def Tree.notified (t : Tree ι) (x : ι) : List ι := t.beneath (Fintype.card ι) (t.root x)

/-- The systems that `detach` tells. -/
def Tree.releaseTold (t : Tree ι) (x : ι) : List ι :=
  match t.container x with
  | none => []
  | some p => (t.cut x p).notified x ++ (t.cut x p).notified p

namespace References

structure State (ι : Type) where
  tree : Tree ι
  referencers : ι → List ι

def State.initial (name : ι → String) : State ι := ⟨Tree.detached name, fun _ => []⟩

inductive Action (ι : Type) where
  | attach (parent child : ι) (name : Option String)
  | detach (x : ι)
  | rename (x : ι) (name : String)

section references

-- The references of each system, and which components `==` holds equal: they are compared by their
-- fields.
variable (references : ι → List DynamicAddress) (equal : ι → ι → Bool)

/-- What the references of a system resolve to. -/
def targets (t : Tree ι) (x : ι) : List ι := (references x).filterMap (t.getComponent x)

/-- `get_referenced_components`: the other components. -/
def referenced (t : Tree ι) (x : ι) : List ι := (targets references t x).filter fun y => decide (y ≠ x)

/-- `x in referencer.get_referenced_components()` -/
def listed (t : Tree ι) (x referencer : ι) : Bool :=
  (referenced references t referencer).any fun y => decide (y = x) || equal y x

def addReferencer (record : ι → List ι) (referencer x : ι) : ι → List ι :=
  Function.update record x
    (if referencer ∈ record x then record x else record x ++ [referencer])

def State.syncReferences (s : State ι) (x : ι) : State ι :=
  let added := (targets references s.tree x).foldl (fun record y => addReferencer record x y) s.referencers
  { s with
    referencers := Function.update added x ((added x).filter (listed references equal s.tree x)) }

/-- The systems are told of a change, one after the other. -/
def State.tell (s : State ι) (told : List ι) : State ι :=
  told.foldl (State.syncReferences references equal) s

def State.detach (s : State ι) (x : ι) : State ι :=
  State.tell references equal { s with tree := s.tree.released x } (s.tree.releaseTold x)

def State.rename (s : State ι) (x : ι) (name : String) : State ι :=
  match s.tree.container x with
  | none => { s with tree := (s.tree.rename x name).tree }
  | some p =>
    if name = s.tree.name x ∨ name ∈ (s.tree.children p).keys then s
    else
      State.tell references equal { s with tree := s.tree.renamed x p name }
        ((s.tree.renamed x p name).notified x)

def State.attach (s : State ι) (parent child : ι) (name : Option String) : State ι :=
  if child = parent then s
  else
    let name := s.tree.childName child name
    let s := s.detach references equal child
    if (s.tree.children parent).get name ≠ none then s
    else
      State.tell references equal { s with tree := s.tree.link parent child name }
        ((s.tree.link parent child name).notified parent)

/-- The operations, but for those that attach a system beneath itself: they make no tree. -/
def State.step (s : State ι) : Action ι → Option (State ι)
  | .attach parent child name =>
    if child ∈ s.tree.ancestors parent then none
    else some (s.attach references equal parent child name)
  | .detach x => some (s.detach references equal x)
  | .rename x name => some (s.rename references equal x name)

/-- `get_referencing_components(recursive=True)`, to a depth; the record holds each referencer once. -/
def State.getReferencingComponents (s : State ι) (depth : Nat) (x : ι) : Option (List ι) :=
  Closure.collect s.referencers depth x

/-! ## 2. What telling leaves in the record -/

/-- Another target of the referencer is equal to the system. -/
def Alike (t : Tree ι) (x referencer : ι) : Prop :=
  ∃ y ∈ referenced references t referencer, equal y x = true

instance (t : Tree ι) (x referencer : ι) : Decidable (Alike references equal t x referencer) := by
  unfold Alike
  infer_instance

variable {references equal}

theorem listed_iff {t : Tree ι} {x referencer : ι} : listed references equal t x referencer = true ↔
    (x ∈ targets references t referencer ∧ x ≠ referencer) ∨ Alike references equal t x referencer := by
  unfold listed Alike
  rw [List.any_eq_true]
  constructor
  · intro ⟨y, hy, heq⟩
    rw [Bool.or_eq_true, decide_eq_true_eq] at heq
    rcases heq with rfl | heq
    · exact .inl ⟨List.mem_of_mem_filter hy, of_decide_eq_true (List.mem_filter.mp hy).2⟩
    · exact .inr ⟨y, hy, heq⟩
  · intro h
    rcases h with ⟨hx, hne⟩ | ⟨y, hy, heq⟩
    · exact ⟨x, List.mem_filter.mpr ⟨hx, decide_eq_true hne⟩, by simp⟩
    · exact ⟨y, hy, by simp [heq]⟩

theorem mem_addReferencer {record : ι → List ι} {referencer x y z : ι} :
    z ∈ addReferencer record referencer y x ↔ z ∈ record x ∨ (z = referencer ∧ x = y) := by
  unfold addReferencer
  by_cases hx : x = y
  · subst hx
    rw [Function.update_self]
    by_cases hmem : referencer ∈ record x
    · rw [if_pos hmem]
      refine ⟨.inl, fun h => h.elim id fun heq => heq.1 ▸ hmem⟩
    · rw [if_neg hmem]
      simp
  · rw [Function.update_of_ne hx]
    simp [hx]

theorem mem_foldl_addReferencer {referencer : ι} {ys : List ι} {record : ι → List ι} {x z : ι} :
    z ∈ ys.foldl (fun record y => addReferencer record referencer y) record x ↔
      z ∈ record x ∨ (z = referencer ∧ x ∈ ys) := by
  induction ys generalizing record with
  | nil => simp
  | cons y ys ih =>
    rw [List.foldl_cons, ih, mem_addReferencer, List.mem_cons]
    tauto

variable {s : State ι}

/-- One system is told. -/
theorem mem_syncReferences {x y z : ι} : z ∈ (s.syncReferences references equal y).referencers x ↔
      (z ∈ s.referencers x ∨ (z = y ∧ x ∈ targets references s.tree y)) ∧
        (x = y → listed references equal s.tree x z = true) := by
  unfold State.syncReferences
  by_cases hx : x = y
  · subst hx
    simp only [Function.update_self, List.mem_filter, mem_foldl_addReferencer, true_implies]
  · simp only [Function.update_of_ne hx, mem_foldl_addReferencer, hx, false_implies, and_true]

theorem tree_tell (s : State ι) (told : List ι) : (s.tell references equal told).tree = s.tree := by
  induction told generalizing s with
  | nil => rfl
  | cons y told ih => exact (ih _).trans rfl

/-- **What telling leaves**, of two systems: those told have entered what they refer to, and have dropped
    the referencers they do not find. -/
theorem mem_tell {told : List ι} {x z : ι} (hne : x ≠ z) : z ∈ (s.tell references equal told).referencers x ↔
      (z ∈ told ∧ x ∈ targets references s.tree z) ∨
        (z ∈ s.referencers x ∧ (x ∈ told → listed references equal s.tree x z = true)) := by
  induction told generalizing s with
  | nil => simp [State.tell]
  | cons y told ih =>
    -- what a system refers to it also finds
    have hfound : x ∈ targets references s.tree z → listed references equal s.tree x z = true :=
      fun hx => listed_iff.mpr (.inl ⟨hx, hne⟩)
    have hstep := @ih (s.syncReferences references equal y)
    have htree : (s.syncReferences references equal y).tree = s.tree := rfl
    rw [htree, mem_syncReferences] at hstep
    simp only [State.tell, List.foldl_cons, List.mem_cons] at hstep ⊢
    rw [hstep]
    constructor
    · intro h
      rcases h with ⟨hz, hx⟩ | ⟨⟨hz | ⟨rfl, hx⟩, hxy⟩, hlisted⟩
      · exact .inl ⟨.inr hz, hx⟩
      · exact .inr ⟨hz, fun hmem => hmem.elim hxy hlisted⟩
      · exact .inl ⟨.inl rfl, hx⟩
    · intro h
      rcases h with ⟨rfl | hz, hx⟩ | ⟨hz, hlisted⟩
      · exact .inr ⟨⟨.inr ⟨rfl, hx⟩, fun _ => hfound hx⟩, fun _ => hfound hx⟩
      · exact .inl ⟨hz, hx⟩
      · exact .inr ⟨⟨.inl hz, fun hxy => hlisted (.inl hxy)⟩, fun hmem => hlisted (.inr hmem)⟩

/-- A system enters itself only when it is told, and drops itself again. -/
theorem self_tell {told : List ι} {x : ι} (hbefore : x ∉ s.referencers x)
    (hafter : x ∈ (s.tell references equal told).referencers x) :
    x ∈ told ∧ x ∈ targets references s.tree x ∧ Alike references equal s.tree x x := by
  induction told generalizing s with
  | nil => exact absurd hafter hbefore
  | cons y told ih =>
    by_cases hsync : x ∈ (s.syncReferences references equal y).referencers x
    · obtain ⟨hadded, hlisted⟩ := mem_syncReferences.mp hsync
      obtain ⟨rfl, hx⟩ := hadded.resolve_left hbefore
      refine ⟨List.mem_cons_self, hx, ?_⟩
      exact (listed_iff.mp (hlisted rfl)).resolve_left fun h => h.2 rfl
    · obtain ⟨htold, hx, halike⟩ := ih hsync hafter
      exact ⟨List.mem_cons_of_mem _ htold, hx, halike⟩

/-! ## 3. The record is right -/

variable (references equal)

/-- The record says of two systems whether one refers to the other. -/
structure Exact (s : State ι) : Prop where
  others : ∀ x y, x ≠ y → (y ∈ s.referencers x ↔ x ∈ targets references s.tree y)
  self : ∀ x, x ∉ s.referencers x

/-- A change of the tree that telling `told` puts right, but for what concerns the systems in `spare`:
    a system that is not told comes to refer to nothing new, and keeps who refers to it; and none that
    is told takes another for itself. -/
def Quiet (told spare : List ι) (t t' : Tree ι) : Prop :=
  (∀ y, y ∉ told → y ∉ spare → ∀ x, x ≠ y → x ∈ targets references t' y → x ∈ targets references t y) ∧
  (∀ x, x ∉ told → x ∉ spare → ∀ y, x ≠ y → x ∈ targets references t y → x ∈ targets references t' y) ∧
  (∀ x ∈ told, ∀ y, x ≠ y → x ∈ targets references t y → x ∉ targets references t' y →
    ¬ Alike references equal t' x y) ∧
  ∀ x ∈ told, x ∈ targets references t' x → ¬ Alike references equal t' x x

instance (told spare : List ι) (t t' : Tree ι) :
    Decidable (Quiet references equal told spare t t') := by
  unfold Quiet
  refine @instDecidableAnd _ _ ?_ (@instDecidableAnd _ _ ?_ (@instDecidableAnd _ _ ?_ ?_))
  · infer_instance
  · infer_instance
  · infer_instance
  · infer_instance

/-- The operations after which the record is right. An attached child is told again after it was
    detached, so it is spared then, but for a referencer it takes for another. -/
def Calm (s : State ι) : Action ι → Prop
  | .attach parent child name => child = parent ∨
      if ((s.tree.released child).children parent).get (s.tree.childName child name) ≠ none then
        Quiet references equal (s.tree.releaseTold child) [] s.tree (s.tree.released child)
      else
        Quiet references equal (s.tree.releaseTold child) [child] s.tree (s.tree.released child) ∧
        Quiet references equal
          (((s.tree.released child).link parent child (s.tree.childName child name)).notified parent) []
          (s.tree.released child)
          ((s.tree.released child).link parent child (s.tree.childName child name)) ∧
        ∀ y, child ≠ y → child ∈ targets references s.tree y →
          child ∉ targets references
            ((s.tree.released child).link parent child (s.tree.childName child name)) y →
          ¬ Alike references equal
            ((s.tree.released child).link parent child (s.tree.childName child name)) child y
  | .detach x => Quiet references equal (s.tree.releaseTold x) [] s.tree (s.tree.released x)
  | .rename x name =>
      (s.tree.container x = none → Quiet references equal [] [] s.tree (s.tree.rename x name).tree) ∧
      ∀ p ∈ s.tree.container x, name = s.tree.name x ∨ name ∈ (s.tree.children p).keys ∨
        Quiet references equal ((s.tree.renamed x p name).notified x) [] s.tree (s.tree.renamed x p name)

instance (s : State ι) (a : Action ι) : Decidable (Calm references equal s a) := by
  cases a <;> unfold Calm <;> infer_instance

variable {references equal}

/-- **A change of the tree, and the systems told of it.** -/
theorem tell_exact {t' : Tree ι} {told : List ι} (h : Exact references s)
    (hquiet : Quiet references equal told [] s.tree t') :
    Exact references (State.tell references equal { s with tree := t' } told) := by
  obtain ⟨hgains, hkeeps, halike, happart⟩ := hquiet
  constructor
  · intro x y hne
    rw [mem_tell hne, tree_tell]
    simp only
    rw [h.others x y hne]
    constructor
    · intro hentry
      rcases hentry with hnew | ⟨hold, hlisted⟩
      · exact hnew.2
      · by_contra hnot
        by_cases hx : x ∈ told
        · rcases listed_iff.mp (hlisted hx) with hfound | hfound
          · exact hnot hfound.1
          · exact halike x hx y hne hold hnot hfound
        · exact hnot (hkeeps x hx List.not_mem_nil y hne hold)
    · intro htarget
      by_cases hy : y ∈ told
      · exact .inl ⟨hy, htarget⟩
      · exact .inr ⟨hgains y hy List.not_mem_nil x hne htarget,
          fun _ => listed_iff.mpr (.inl ⟨htarget, hne⟩)⟩
  · intro x hafter
    obtain ⟨htold, htarget, hfound⟩ := self_tell (s := { s with tree := t' }) (h.self x) hafter
    exact happart x htold htarget hfound

/-- **A system that is detached and attached again**: the second telling puts right what the first one
    left out of it. -/
theorem tell_twice_exact {child : ι} {t₁ t₂ : Tree ι} {told₁ told₂ : List ι} (h : Exact references s)
    (hchild : child ∈ told₂) (hfirst : Quiet references equal told₁ [child] s.tree t₁)
    (hsecond : Quiet references equal told₂ [] t₁ t₂)
    (hspare : ∀ y, child ≠ y → child ∈ targets references s.tree y → child ∉ targets references t₂ y →
      ¬ Alike references equal t₂ child y) : Exact references (State.tell references equal
      ⟨t₂, (State.tell references equal ⟨t₁, s.referencers⟩ told₁).referencers⟩ told₂) := by
  obtain ⟨hgains, hkeeps, halike, happart⟩ := hfirst
  obtain ⟨hgains₂, hkeeps₂, halike₂, happart₂⟩ := hsecond
  -- what the first telling leaves: nothing too much but for the child, and all of the others
  have hsub : ∀ x y, x ≠ y → y ∈ (State.tell references equal ⟨t₁, s.referencers⟩ told₁).referencers x →
      x ∈ targets references t₁ y ∨ (x = child ∧ x ∈ targets references s.tree y) := by
    intro x y hne hmem
    rcases (mem_tell hne).mp hmem with hnew | ⟨hold, hlisted⟩
    · exact .inl hnew.2
    · have hold := (h.others x y hne).mp hold
      by_contra hnot
      rw [not_or] at hnot
      by_cases hx : x ∈ told₁
      · rcases listed_iff.mp (hlisted hx) with hfound | hfound
        · exact hnot.1 hfound.1
        · exact halike x hx y hne hold hnot.1 hfound
      · by_cases heq : x = child
        · exact hnot.2 ⟨heq, hold⟩
        · exact hnot.1 (hkeeps x hx (by simpa using heq) y hne hold)
  have hsup : ∀ x y, x ≠ y → y ≠ child → x ∈ targets references t₁ y →
      y ∈ (State.tell references equal ⟨t₁, s.referencers⟩ told₁).referencers x := by
    intro x y hne hy htarget
    refine (mem_tell hne).mpr ?_
    by_cases htold : y ∈ told₁
    · exact .inl ⟨htold, htarget⟩
    · exact .inr ⟨(h.others x y hne).mpr (hgains y htold (by simpa using hy) x hne htarget),
        fun _ => listed_iff.mpr (.inl ⟨htarget, hne⟩)⟩
  constructor
  · intro x y hne
    rw [mem_tell hne, tree_tell]
    constructor
    · intro hentry
      rcases hentry with hnew | ⟨hold, hlisted⟩
      · exact hnew.2
      · by_contra hnot
        by_cases hx : x ∈ told₂
        · rcases listed_iff.mp (hlisted hx) with hfound | hfound
          · exact hnot hfound.1
          · rcases hsub x y hne hold with htarget | ⟨rfl, htarget⟩
            · exact halike₂ x hx y hne htarget hnot hfound
            · exact hspare y hne htarget hnot hfound
        · rcases hsub x y hne hold with htarget | ⟨rfl, _⟩
          · exact hnot (hkeeps₂ x hx List.not_mem_nil y hne htarget)
          · exact hx hchild
    · intro htarget
      by_cases hy : y ∈ told₂
      · exact .inl ⟨hy, htarget⟩
      · have hother : y ≠ child := fun heq => hy (heq ▸ hchild)
        exact .inr ⟨hsup x y hne hother (hgains₂ y hy List.not_mem_nil x hne htarget),
          fun _ => listed_iff.mpr (.inl ⟨htarget, hne⟩)⟩
  · intro x hafter
    have hbefore : x ∉ (State.tell references equal ⟨t₁, s.referencers⟩ told₁).referencers x := by
      intro hmem
      obtain ⟨htold, htarget, hfound⟩ := self_tell (s := { s with tree := t₁ }) (h.self x) hmem
      exact happart x htold htarget hfound
    obtain ⟨htold, htarget, hfound⟩ := self_tell (s := ⟨t₂, _⟩) hbefore hafter
    exact happart₂ x htold htarget hfound

/-! ## 4. The operations keep the record -/

theorem mem_beneath {t : Tree ι} (h : WellFormed t) {y r : ι} {l₁ l₂ : List ι} {n : Nat}
    (hl : Chain t.container y (l₁ ++ r :: l₂)) (hn : l₁.length < n) : y ∈ t.beneath n r := by
  obtain ⟨n, rfl⟩ := Nat.exists_eq_succ_of_ne_zero (Nat.ne_of_gt (Nat.lt_of_le_of_lt (Nat.zero_le _) hn))
  have hchild : ∀ d, t.container d = some r → d ∈ (t.children r).values :=
    fun d hd => List.mem_map_of_mem ((h.registered r (t.name d) d).mpr ⟨hd, rfl⟩)
  -- the induction takes the way up from its top end, as the walk down does
  induction l₁ using List.reverseRecOn generalizing r l₂ n with
  | nil => exact List.mem_flatMap.mpr ⟨y, hchild y hl.1, List.mem_cons_self⟩
  | append_singleton l₁ d ih =>
    rw [List.append_assoc, List.singleton_append] at hl
    rw [List.length_append, List.length_singleton] at hn
    obtain ⟨m, rfl⟩ : ∃ m, n = m + 1 := Nat.exists_eq_succ_of_ne_zero (by omega)
    have hd : t.container d = some r := hl.drop.1
    have hbelow : y ∈ t.beneath (m + 1) d := by
      refine ih hl m (by omega) ?_
      exact fun e he => List.mem_map_of_mem ((h.registered d (t.name e) e).mpr ⟨he, rfl⟩)
    exact List.mem_flatMap.mpr ⟨d, hchild d hd, List.mem_cons_of_mem _ hbelow⟩

theorem child_notified {t : Tree ι} (h : WellFormed t) {child parent : ι}
    (hchild : t.container child = some parent) : child ∈ t.notified parent := by
  obtain ⟨l, hl⟩ := h.ends parent
  have hchain : Chain t.container child (parent :: l) := ⟨hchild, hl⟩
  have hroot : t.root parent ∈ parent :: l := by
    rw [Tree.root, Tree.ancestors, hl.follow_eq hl.length_lt.le]
    exact List.getLastD_mem_cons ..
  obtain ⟨l₁, l₂, heq⟩ := List.append_of_mem hroot
  have hlength := hchain.length_lt
  rw [heq] at hchain hlength
  refine mem_beneath h hchain (Nat.lt_of_le_of_lt ?_ hlength)
  simp

/-- The operation on the tree alone. -/
def Action.onTree : Action ι → TreeAction ι
  | .attach parent child name => .attach parent child name
  | .detach x => .detach x
  | .rename x name => .rename x name

/-- **The trees are those of the operations on systems.** -/
theorem step_tree {s s' : State ι} {a : Action ι} (h : WellFormed s.tree)
    (hstep : s.step references equal a = some s') :
    ∃ outcome, s.tree.perform a.onTree = some outcome ∧ outcome.tree = s'.tree ∧ WellFormed s'.tree := by
  cases a with
  | attach parent child name =>
    simp only [State.step, Option.ite_none_left_eq_some, Option.some.injEq] at hstep
    obtain ⟨hnot, rfl⟩ := hstep
    rw [h.mem_ancestors] at hnot
    by_cases hne : child = parent
    · refine ⟨⟨s.tree, some .containsItself⟩, if_pos hne, ?_, ?_⟩
      · rw [State.attach, if_pos hne]
      · rw [State.attach, if_pos hne]
        exact h
    · obtain ⟨outcome, hattach, hwf, -⟩ := attach_spec h name hne hnot
      have houtcome := Option.some.inj (hattach.symm.trans (attach_eq h name hne hnot))
      have htree : outcome.tree = (s.attach references equal parent child name).tree := by
        rw [houtcome, State.attach, if_neg hne]
        simp only [State.detach, tree_tell]
        split
        · rw [tree_tell]
        · rw [tree_tell]
      exact ⟨outcome, hattach, htree, htree ▸ hwf⟩
  | detach x =>
    obtain rfl := Option.some.inj hstep
    refine ⟨⟨s.tree.released x, none⟩, congrArg some (detach_released h x), ?_, ?_⟩
    · rw [State.detach, tree_tell]
    · rw [State.detach, tree_tell]
      exact h.released x
  | rename x name =>
    obtain rfl := Option.some.inj hstep
    have htree : (s.tree.rename x name).tree = (s.rename references equal x name).tree := by
      unfold State.rename
      cases hx : s.tree.container x with
      | none => rfl
      | some p =>
        by_cases hsame : name = s.tree.name x
        · simp [Tree.rename, hx, hsame]
        · by_cases htaken : name ∈ (s.tree.children p).keys
          · simp [Tree.rename, hx, hsame, htaken]
          · simp [Tree.rename, hx, hsame, htaken, tree_tell, Tree.raiseUnless]
    refine ⟨_, rfl, htree, ?_⟩
    rw [← htree]
    exact (rename_spec h x name).1

theorem attach_exact {parent child : ι} {name : Option String} (h : WellFormed s.tree)
    (hexact : Exact references s) (hnot : child ∉ s.tree.ancestors parent)
    (hcalm : Calm references equal s (.attach parent child name)) :
    Exact references (s.attach references equal parent child name) := by
  unfold State.attach
  by_cases hne : child = parent
  · rw [if_pos hne]
    exact hexact
  · have hcalm := hcalm.resolve_left hne
    rw [if_neg hne]
    simp only [State.detach, tree_tell]
    by_cases hget : ((s.tree.released child).children parent).get (s.tree.childName child name) = none
    · rw [if_neg (fun hsome => hsome hget)] at hcalm ⊢
      rw [h.mem_ancestors] at hnot
      have hlink := (h.released child).link (container_released s.tree child) hget hne
        fun habove => hnot (above_of_released habove)
      refine tell_twice_exact hexact ?_ hcalm.1 hcalm.2.1 hcalm.2.2
      exact child_notified hlink (Function.update_self ..)
    · rw [if_pos hget] at hcalm ⊢
      exact tell_exact hexact hcalm

theorem rename_exact {x : ι} {name : String} (hexact : Exact references s)
    (hcalm : Calm references equal s (.rename x name)) : Exact references (s.rename references equal x name) := by
  unfold State.rename
  cases hx : s.tree.container x with
  | none =>
    have htold : Exact references (State.tell references equal
        { s with tree := (s.tree.rename x name).tree } []) := tell_exact hexact (hcalm.1 hx)
    exact htold
  | some p =>
    by_cases hsame : name = s.tree.name x ∨ name ∈ (s.tree.children p).keys
    · simp only [if_pos hsame]
      exact hexact
    · simp only [if_neg hsame]
      rw [not_or] at hsame
      exact tell_exact hexact (((hcalm.2 p hx).resolve_left hsame.1).resolve_left hsame.2)

theorem step_exact (s : State ι) (a : Action ι) (s' : State ι)
    (h : WellFormed s.tree ∧ Exact references s) (hcalm : Calm references equal s a)
    (hstep : s.step references equal a = some s') : WellFormed s'.tree ∧ Exact references s' := by
  obtain ⟨hwf, hexact⟩ := h
  obtain ⟨_, _, _, hwf'⟩ := step_tree hwf hstep
  refine ⟨hwf', ?_⟩
  cases a with
  | attach parent child name =>
    simp only [State.step, Option.ite_none_left_eq_some, Option.some.injEq] at hstep
    obtain ⟨hnot, rfl⟩ := hstep
    exact attach_exact hwf hexact hnot hcalm
  | detach x =>
    obtain rfl := Option.some.inj hstep
    exact tell_exact hexact hcalm
  | rename x name =>
    obtain rfl := Option.some.inj hstep
    exact rename_exact hexact hcalm

theorem targets_detached (name : ι → String) {x y : ι}
    (h : x ∈ targets references (Tree.detached name) y) : x = y := by
  have hroot : (Tree.detached name).root y = y := by
    simp only [Tree.root, Tree.ancestors, Tree.detached]
    cases Fintype.card ι <;> rfl
  have hwalk : ∀ (names : List String) z, (Tree.detached name).walkDown names y = some z → z = y := by
    intro names z hz
    cases names with
    | nil => exact (Option.some.inj hz).symm
    | cons first names => exact absurd hz (by simp [Tree.walkDown, Tree.detached])
  obtain ⟨address, _, haddress⟩ := List.mem_filterMap.mp h
  unfold Tree.getComponent at haddress
  rw [hroot] at haddress
  split at haddress
  · split at haddress
    · exact (Option.some.inj haddress).symm
    · exact hwalk _ x (Option.ite_none_right_eq_some.mp haddress).2
  · exact hwalk _ x haddress

theorem exact_initial (name : ι → String) : Exact references (State.initial name : State ι) := by
  refine ⟨fun x y hne => ⟨fun h => ?_, fun h => ?_⟩, fun x h => ?_⟩
  · exact absurd h List.not_mem_nil
  · exact absurd (targets_detached name h) hne
  · exact absurd h List.not_mem_nil

variable (references) in
/-- A reference of one component to another. -/
def Refers (t : Tree ι) (y x : ι) : Prop := x ≠ y ∧ x ∈ targets references t y

/-- Where the record is right, a step of the recursive walk is a reference the other way round. -/
theorem Exact.step_eq (h : Exact references s) :
    Closure.Step s.referencers = Function.swap (Refers references s.tree) := by
  funext x y
  refine propext ⟨fun hmem => ?_, fun hrefers => (h.others x y hrefers.1).mpr hrefers.2⟩
  have hne : x ≠ y := fun heq => h.self x (heq ▸ hmem)
  exact ⟨hne, (h.others x y hne).mp hmem⟩

/-- **Referencers are known exactly.** In a run whose operations change nothing that is not put right
    (the root is never told of a change, nor is anything when the root is renamed, and components are
    found by their fields), a system is on record with another exactly when it refers to it; and the
    recursive walk ends exactly where no cycle of references leads to the component, with the
    components that it is reached from. -/
theorem referencers_exact (references : ι → List DynamicAddress) (equal : ι → ι → Bool)
    (name : ι → String) (actions : List (Action ι)) (s : State ι)
    (hcalm : Along (State.step references equal) (Calm references equal) (State.initial name) actions)
    (hrun : run (State.step references equal) (State.initial name) actions = some s) :
    (∀ x y, x ≠ y → (y ∈ s.referencers x ↔ x ∈ targets references s.tree y)) ∧
    ∀ x,
      ((∃ depth, (s.getReferencingComponents depth x).isSome) ↔
        ∀ y, Relation.ReflTransGen (Refers references s.tree) y x →
          ¬ Relation.TransGen (Refers references s.tree) y y) ∧
      ∀ depth l, s.getReferencingComponents depth x = some l →
        ∀ y, y ∈ l ↔ Relation.TransGen (Refers references s.tree) y x := by
  obtain ⟨_, hexact⟩ := run_inv step_exact actions _ s
    ⟨wellFormed_detached name, exact_initial name⟩ hcalm hrun
  have hreach : ∀ x y, Relation.TransGen (Closure.Step s.referencers) x y ↔
      Relation.TransGen (Refers references s.tree) y x := by
    intro x y
    rw [hexact.step_eq]
    exact Relation.transGen_swap
  have hreach' : ∀ x y, Relation.ReflTransGen (Closure.Step s.referencers) x y ↔
      Relation.ReflTransGen (Refers references s.tree) y x := by
    intro x y
    rw [hexact.step_eq]
    exact Relation.reflTransGen_swap
  refine ⟨hexact.others, fun x => ⟨⟨?_, ?_⟩, ?_⟩⟩
  · intro ⟨depth, hsome⟩ y hy hcycle
    have hnone := Closure.collect_cycle ((hreach' x y).mpr hy) ((hreach y y).mpr hcycle) depth
    rw [State.getReferencingComponents, hnone] at hsome
    exact absurd hsome (by simp)
  · intro hacyclic
    refine ⟨_, Closure.collect_isSome Finset.univ (fun y _ => Finset.mem_univ y) ?_⟩
    exact fun y hy hcycle => hacyclic y ((hreach' x y).mp hy) ((hreach y y).mp hcycle)
  · intro depth l hl y
    rw [Closure.mem_collect hl y, hreach]

end references

/-- The third of the systems refers to the second and the fourth to the third. -/
def someReferences : Fin 5 → List DynamicAddress
  | 2 => [⟨true, ["root", "b"]⟩]
  | 3 => [⟨true, ["root", "c"]⟩, ⟨false, ["b"]⟩]
  | _ => []

def someRun : List (Action (Fin 5)) :=
  [.attach 0 1 (some "b"), .attach 0 2 (some "c"), .attach 0 3 (some "d"), .rename 1 "e",
    .rename 1 "b", .detach 3, .attach 2 3 none]

theorem referencers_exact_someRun :
    Along (State.step someReferences fun _ _ => false) (Calm someReferences fun _ _ => false)
        (State.initial fun _ => "root") someRun ∧
      ∃ s, run (State.step someReferences fun _ _ => false) (State.initial fun _ => "root") someRun
          = some s ∧ s.referencers 1 = [2] ∧
        s.getReferencingComponents 5 1 = some [2, 3] ∧
        ∀ y, y ∈ [2, 3] ↔ Relation.TransGen (Refers someReferences s.tree) y 1 := by
  refine ⟨by decide, _, rfl, by decide, by decide, ?_⟩
  exact ((referencers_exact someReferences (fun _ _ => false) (fun _ => "root") someRun _
    (by decide) rfl).2 1).2 5 [2, 3] (by decide)

/-- **A reference of the root.** A child is attached under the name its parent refers to, and the parent,
    the root of the tree, is not told. -/
theorem root_not_told :
    ¬ ∀ (references : Fin 2 → List DynamicAddress) (equal : Fin 2 → Fin 2 → Bool)
      (name : Fin 2 → String) (actions : List (Action (Fin 2))) (s : State (Fin 2)),
      run (State.step references equal) (State.initial name) actions = some s →
        ∀ x y, x ≠ y → (y ∈ s.referencers x ↔ x ∈ targets references s.tree y) := by
  intro h
  have hone := h (fun _ => [⟨false, ["b"]⟩]) (fun _ _ => false) (fun _ => "a") [.attach 0 1 (some "b")] _
    rfl 1 0 (by decide)
  exact absurd hone (by decide)

end References

end Ceres.Component
