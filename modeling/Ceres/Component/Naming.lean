/-
  File:      Ceres/Component/Naming.lean
  Subject:   THE NAMES OF UNNAMED OBJECTS (`__internal__/manager.py`:
             `BaseComponentTaskManager.add` for an object whose name is None).

  The loop of `add` computes the same number, one more than there are objects, in every turn.

  * `searchName` -- the loop, in a given number of turns; `Registers` -- it leaves, and the object is
    registered under a name of its own;
  * `step_add_none` -- what the system's step says about such an addition is what the loop does;
  * **`unnamed_add_iff`** -- it leaves exactly where the next number is no name in use; in a run that
    removes nothing and gives no number as a name it always does;
  * `second_name_taken` -- the loop after one removal.
-/
import Ceres.Component.TaskManager

namespace Ceres.Component.TaskManager

open Ceres.Library

variable {ω : Type}

/-! ## 1. The loop -/

/-- The loop that looks for a name, left after so many turns at most. -/
def State.searchName (s : State ω) : Nat → Option String
  | 0 => none
  | turns + 1 =>
    let number := s.objects.length + 1
    let name := toString number
    if s.objects.get name = none then some name else s.searchName turns

def State.addUnnamed (s : State ω) (turns : Nat) (object : ω) : Option (State ω) :=
  (s.searchName turns).map fun name => s.add name object

/-- The addition returns, and the object has a name that no other has. -/
def Registers (s : State ω) (object : ω) : Prop :=
  ∃ turns t name, s.addUnnamed turns object = some t ∧
    t.objects = s.objects ++ [(name, object)] ∧ name ∉ s.objects.keys

/-- The number the next unnamed object gets is no name in use. -/
def State.NumberFree (s : State ω) : Prop := s.objects.get (toString (s.objects.length + 1)) = none

instance (s : State ω) : Decidable s.NumberFree := by
  unfold State.NumberFree
  infer_instance

variable {s : State ω}

/-- No turn changes what the next one looks at. -/
theorem searchName_eq_some {name : String} : ∀ turns, s.searchName turns = some name ↔
      0 < turns ∧ s.NumberFree ∧ name = toString (s.objects.length + 1)
  | 0 => by simp [State.searchName]
  | turns + 1 => by
    rw [State.searchName]
    split
    · rename_i hfree
      rw [Option.some.injEq]
      constructor
      · rintro rfl
        exact ⟨Nat.succ_pos _, hfree, rfl⟩
      · rintro ⟨-, -, rfl⟩
        rfl
    · rename_i htaken
      rw [searchName_eq_some turns]
      constructor
      · rintro ⟨-, hfree, -⟩
        exact absurd hfree htaken
      · rintro ⟨-, hfree, -⟩
        exact absurd hfree htaken

/-- The loop over the objects leaves them and the waiting operations alone. -/
theorem foldl_createTask_keeps :
    ∀ (rest : Dict String ω) (s : State ω), (rest.foldl State.createTask s).objects = s.objects ∧
      (rest.foldl State.createTask s).operations = s.operations
  | [], _ => ⟨rfl, rfl⟩
  | object :: rest, s => foldl_createTask_keeps rest (s.createTask object)

theorem syncTasks_objects (s : State ω) : s.syncTasks.objects = s.objects :=
  (foldl_createTask_keeps s.objects s).1

theorem syncTasks_operations (s : State ω) : s.syncTasks.operations = s.operations :=
  (foldl_createTask_keeps s.objects s).2

theorem add_objects (s : State ω) (name : String) (object : ω) :
    (s.add name object).objects = s.objects ++ [(name, object)] := by
  unfold State.add
  dsimp only
  split
  · exact syncTasks_objects _
  · rfl

/-- The step of the system is enabled exactly when the loop leaves, and takes the state it leaves in. -/
theorem step_add_none (s t : State ω) (object : ω) :
    step s (.add none object) = some t ↔ ∃ turns, s.addUnnamed turns object = some t := by
  have hstep : step s (.add none object) = some t ↔
      s.NumberFree ∧ s.add (toString (s.objects.length + 1)) object = t := by
    show (if s.NumberFree then some (s.add (toString (s.objects.length + 1)) object) else none) = some t ↔ _
    rw [Option.ite_none_right_eq_some, Option.some.injEq]
  rw [hstep]
  constructor
  · rintro ⟨hfree, rfl⟩
    refine ⟨1, ?_⟩
    rw [State.addUnnamed, (searchName_eq_some 1).mpr ⟨Nat.one_pos, hfree, rfl⟩, Option.map_some]
  · rintro ⟨turns, hadd⟩
    obtain ⟨name, hname, rfl⟩ := Option.map_eq_some_iff.mp hadd
    obtain ⟨-, hfree, rfl⟩ := (searchName_eq_some turns).mp hname
    exact ⟨hfree, rfl⟩

theorem registers_iff (s : State ω) (object : ω) : Registers s object ↔ s.NumberFree := by
  constructor
  · rintro ⟨turns, t, name, hadd, -, -⟩
    obtain ⟨_, hsearch, -⟩ := Option.map_eq_some_iff.mp hadd
    exact ((searchName_eq_some turns).mp hsearch).2.1
  · intro hfree
    obtain ⟨turns, hadd⟩ := (step_add_none s _ object).mp (if_pos hfree)
    exact ⟨turns, _, _, hadd, add_objects .., Dict.get_eq_none_iff.mp hfree⟩

/-! ## 2. Runs without removals -/

/-- Nothing is removed by its name, and no number is given as a name. -/
def Action.Growing : Action ω → Prop
  | .add (some name) _ => ∀ number : Nat, name ≠ toString number
  | .remove _ => False
  | _ => True

/-- The numbers in use are at most as many as the objects. -/
structure Numbered (s : State ω) : Prop where
  bound : ∀ number : Nat, toString number ∈ s.objects.keys → number ≤ s.objects.length
  waiting : ∀ op ∈ s.operations, ∀ name, op.kind ≠ .remove name

theorem Numbered.free (h : Numbered s) : s.NumberFree := by
  refine Dict.get_eq_none_iff.mpr fun hmem => ?_
  have hbound := h.bound _ hmem
  omega

theorem toString_inj {m n : Nat} (h : toString m = toString n) : m = n := by
  have hdigits : Nat.toDigits 10 m = Nat.toDigits 10 n := by
    rw [← Nat.toList_repr, ← Nat.toList_repr]
    exact congrArg String.toList h
  rw [← @Nat.ofDigitChars_ten_toDigits m, hdigits, Nat.ofDigitChars_ten_toDigits]

theorem numbered_add {name : String} {object : ω} (h : Numbered s)
    (hname : ∀ number : Nat, name = toString number → number ≤ s.objects.length + 1) :
    Numbered (s.add name object) := by
  have hoperations : (s.add name object).operations = s.operations := by
    unfold State.add
    dsimp only
    split
    · exact syncTasks_operations _
    · rfl
  constructor
  · intro number hmem
    rw [add_objects, Dict.keys, List.map_append, List.mem_append] at hmem
    rw [add_objects, List.length_append, List.length_singleton]
    rcases hmem with hold | hnew
    · exact Nat.le_succ_of_le (h.bound number hold)
    · exact hname number (List.mem_singleton.mp hnew).symm
  · rw [hoperations]
    exact h.waiting

/-- What an operation other than `remove` does when it goes on. -/
theorem numbered_finish {kind : Kind} (h : Numbered s) (hkind : ∀ name, kind ≠ .remove name) :
    Numbered (s.finish kind) := by
  cases kind with
  | remove name => exact absurd rfl (hkind name)
  | clear => exact ⟨fun number hmem => absurd hmem List.not_mem_nil, h.waiting⟩
  | stop => exact ⟨h.bound, h.waiting⟩

theorem numbered_enter {kind : Kind} {waits : List Nat} (h : Numbered s)
    (hkind : ∀ name, kind ≠ .remove name) : Numbered (s.enter kind waits) := by
  unfold State.enter
  split
  · exact numbered_finish h hkind
  · refine ⟨h.bound, fun op hop => ?_⟩
    rcases List.mem_append.mp hop with hold | hnew
    · exact h.waiting op hold
    · rw [List.mem_singleton.mp hnew]
      exact hkind

theorem numbered_step {s t : State ω} {a : Action ω} (h : Numbered s) (hgrowing : a.Growing)
    (hstep : step s a = some t) : Numbered t := by
  cases a with
  | add name object =>
    simp only [step, Option.ite_none_right_eq_some, Option.some.injEq] at hstep
    obtain ⟨-, rfl⟩ := hstep
    refine numbered_add h fun number heq => ?_
    cases name with
    | none => exact (toString_inj heq).ge
    | some name => exact absurd heq (hgrowing number)
  | remove name => exact hgrowing.elim
  | clear =>
    obtain rfl := Option.some.inj hstep
    exact numbered_enter h (by simp)
  | start =>
    simp only [step, Option.ite_none_left_eq_some, Option.some.injEq] at hstep
    obtain ⟨-, rfl⟩ := hstep
    exact ⟨(syncTasks_objects { s with running := true }).symm ▸ h.bound,
      (syncTasks_operations { s with running := true }).symm ▸ h.waiting⟩
  | stop =>
    simp only [step, Option.ite_none_right_eq_some, Option.some.injEq] at hstep
    obtain ⟨-, rfl⟩ := hstep
    exact numbered_enter h (by simp)
  | finished task =>
    simp only [step, Option.ite_none_right_eq_some, Option.some.injEq] at hstep
    obtain ⟨-, rfl⟩ := hstep
    exact ⟨h.bound, h.waiting⟩
  | resume i =>
    obtain ⟨op, hop, hfinish⟩ := Option.bind_eq_some_iff.mp hstep
    simp only [Option.ite_none_right_eq_some, Option.some.injEq] at hfinish
    obtain ⟨-, rfl⟩ := hfinish
    have hrest : Numbered { s with operations := s.operations.eraseIdx i } :=
      ⟨h.bound, fun other hother => h.waiting other (List.mem_of_mem_eraseIdx hother)⟩
    exact numbered_finish hrest (h.waiting op (List.mem_of_getElem? hop))

theorem numbered_initial : Numbered (State.initial : State ω) :=
  ⟨fun _ hmem => absurd hmem List.not_mem_nil, fun _ hop => absurd hop List.not_mem_nil⟩

theorem growing_always : ∀ (actions : List (Action ω)) (s : State ω), Numbered s →
    (∀ a ∈ actions, a.Growing) → Always step State.NumberFree s actions
  | [], _, h, _ => h.free
  | a :: rest, _, h, hgrowing => ⟨h.free, fun t hstep =>
      growing_always rest t (numbered_step h (hgrowing a List.mem_cons_self) hstep)
        fun b hb => hgrowing b (List.mem_cons_of_mem a hb)⟩

/-- **When an unnamed object is added.** In every state, so in every one a run reaches, the addition
    returns and gives a name of its own exactly if the next number is no name in use; in a run that
    removes no name and gives no number as one, that is so in every state. -/
theorem unnamed_add_iff :
    (∀ (s : State ω) (object : ω), Registers s object ↔ s.NumberFree) ∧
    ∀ actions : List (Action ω), (∀ a ∈ actions, a.Growing) →
      Always step State.NumberFree State.initial actions :=
  ⟨registers_iff, fun actions hgrowing => growing_always actions _ numbered_initial hgrowing⟩

/-- **The name that is left.** Two unnamed objects are `1` and `2`; with the first removed the next one
    would be `2` again, and the loop does not end. -/
theorem second_name_taken :
    ¬ ∀ (actions : List (Action Nat)) (t : State Nat) (object : Nat),
      run step State.initial actions = some t → Registers t object := by
  intro h
  have hregisters := h [.add none 7, .add none 8, .remove "1"] _ 9 rfl
  exact absurd ((registers_iff _ _).mp hregisters) (by decide)

end Ceres.Component.TaskManager
