/-
  File:      Ceres/Library/Ascent.lean
  Subject:   FOLLOWING A POINTER UPWARDS.

  Each element may point at one other, as a node of a tree points at its parent.

  * `Chain`, `Ends`, `Above` -- what is above an element, that the way up ends, the proper ancestors;
  * `Chain.nodup`, `Chain.length_lt` -- the way up goes through no element twice, so among finitely
    many it is short;
  * `follow` -- the walk with a bound on its steps, `Chain.follow_eq` -- the bound is enough;
  * `Ends.cut`, `Ends.link` -- the way up still ends after a pointer is taken away, and after one is
    set to an element that is not beneath.
-/
import Mathlib.Tactic
import Mathlib.Logic.Relation
import Mathlib.Data.Fintype.Card

namespace Ceres.Library

namespace Ascent

variable {α : Type} {up : α → Option α}

/-- The elements above `x`, the nearest first. -/
def Chain (up : α → Option α) : α → List α → Prop
  | x, [] => up x = none
  | x, p :: above => up x = some p ∧ Chain up p above

/-- The way up from `x` ends. -/
def Ends (up : α → Option α) (x : α) : Prop := ∃ above, Chain up x above

/-- `a` is a proper ancestor of `b`. -/
def Above (up : α → Option α) (a b : α) : Prop := Relation.TransGen (fun x p => up x = some p) b a

variable {x : α}

theorem Ends.of_none (h : up x = none) : Ends up x := ⟨[], h⟩

theorem Ends.step {x p : α} (h : up x = some p) (hp : Ends up p) : Ends up x := by
  obtain ⟨above, hchain⟩ := hp
  exact ⟨p :: above, h, hchain⟩

theorem Chain.unique {l m : List α} (hl : Chain up x l) (hm : Chain up x m) : l = m := by
  induction l generalizing x m with
  | nil =>
    cases m with
    | nil => rfl
    | cons p m => exact absurd (hl.symm.trans hm.1) (by simp)
  | cons q l ih =>
    cases m with
    | nil => exact absurd (hm.symm.trans hl.1) (by simp)
    | cons p m =>
      obtain rfl := Option.some.inj (hl.1.symm.trans hm.1)
      rw [ih hl.2 hm.2]

theorem Chain.drop {x y : α} {l₁ l₂ : List α} (h : Chain up x (l₁ ++ y :: l₂)) : Chain up y l₂ := by
  induction l₁ generalizing x with
  | nil => exact h.2
  | cons p l₁ ih => exact ih h.2

variable {l : List α}

theorem Chain.not_mem_self (h : Chain up x l) : x ∉ l := by
  intro hx
  obtain ⟨l₁, l₂, heq⟩ := List.append_of_mem hx
  rw [heq] at h
  -- the chain above `x` would be longer than itself
  have hlength := congrArg List.length (h.unique h.drop)
  simp only [List.length_append, List.length_cons] at hlength
  omega

theorem Chain.nodup (h : Chain up x l) : (x :: l).Nodup := by
  induction l generalizing x with
  | nil => exact List.nodup_singleton x
  | cons p l ih => exact List.nodup_cons.mpr ⟨h.not_mem_self, ih h.2⟩

theorem Chain.length_lt [Fintype α] (h : Chain up x l) : l.length < Fintype.card α :=
  h.nodup.length_le_card

theorem Chain.mem_iff {x a : α} (h : Chain up x l) : a ∈ l ↔ Above up a x := by
  constructor
  · intro ha
    induction l generalizing x with
    | nil => exact absurd ha List.not_mem_nil
    | cons p l ih =>
      rcases List.mem_cons.mp ha with rfl | ha
      · exact .single h.1
      · exact .head h.1 (ih h.2 ha)
  · intro ha
    induction ha using Relation.TransGen.head_induction_on generalizing l with
    | single hstep =>
      cases l with
      | nil => exact absurd (hstep.symm.trans h) (by simp)
      | cons p l =>
        obtain rfl := Option.some.inj (hstep.symm.trans h.1)
        exact List.mem_cons_self
    | head hstep _ ih =>
      cases l with
      | nil => exact absurd (hstep.symm.trans h) (by simp)
      | cons p l =>
        obtain rfl := Option.some.inj (hstep.symm.trans h.1)
        exact List.mem_cons_of_mem _ (ih h.2)

theorem Ends.not_above_self (h : Ends up x) : ¬ Above up x x := by
  obtain ⟨l, hl⟩ := h
  exact fun hx => hl.not_mem_self (hl.mem_iff.mpr hx)

/-- The elements met on the way up, at most `n` of them. -/
def follow (up : α → Option α) : Nat → Option α → List α
  | _, none => []
  | 0, some _ => []
  | n + 1, some p => p :: follow up n (up p)

theorem Chain.follow_eq (h : Chain up x l) {n : Nat} (hn : l.length ≤ n) : follow up n (up x) = l := by
  induction l generalizing x n with
  | nil =>
    have hx : up x = none := h
    rw [hx]
    cases n <;> rfl
  | cons p l ih =>
    rw [h.1]
    cases n with
    | zero => simp at hn
    | succ n =>
      rw [follow, ih h.2 (Nat.le_of_succ_le_succ hn)]

section update

variable [DecidableEq α]

/-- The way up still ends after a pointer is taken away. -/
theorem Ends.cut {x y : α} (h : Ends up y) : Ends (Function.update up x none) y := by
  obtain ⟨l, hl⟩ := h
  induction l generalizing y with
  | nil =>
    refine Ends.of_none ?_
    by_cases hy : y = x
    · rw [hy, Function.update_self]
    · rw [Function.update_of_ne hy]
      exact hl
  | cons p l ih =>
    by_cases hy : y = x
    · exact Ends.of_none (by rw [hy, Function.update_self])
    · exact Ends.step (by rw [Function.update_of_ne hy]; exact hl.1) (ih hl.2)

theorem Above.of_cut {x a b : α} (h : Above (Function.update up x none) a b) : Above up a b := by
  refine Relation.TransGen.mono (fun y p hy => ?_) _ _ h
  by_cases hx : y = x
  · rw [hx, Function.update_self] at hy
    exact absurd hy (by simp)
  · rwa [Function.update_of_ne hx] at hy

/-- The chain above an element that is not beneath `x` does not see the pointer of `x`. -/
theorem Chain.update {x y : α} {l : List α} {target : Option α} (h : Chain up y l)
    (hx : x ∉ y :: l) : Chain (Function.update up x target) y l := by
  induction l generalizing y with
  | nil =>
    have hy : y ≠ x := fun heq => hx (heq ▸ List.mem_cons_self)
    exact (Function.update_of_ne hy _ _).trans h
  | cons p l ih =>
    have hy : y ≠ x := fun heq => hx (heq ▸ List.mem_cons_self)
    exact ⟨(Function.update_of_ne hy _ _).trans h.1,
      ih h.2 fun hmem => hx (List.mem_cons_of_mem _ hmem)⟩

/-- The way up still ends after the pointer of `x`, which had none, is set to an element that is
    neither `x` nor beneath it. -/
theorem Ends.link {x p y : α} (hx : up x = none) (hp : Ends up p) (hne : x ≠ p)
    (hnot : ¬ Above up x p) (h : Ends up y) : Ends (Function.update up x (some p)) y := by
  obtain ⟨above, habove⟩ := hp
  have hfree : x ∉ p :: above := by
    intro hmem
    rcases List.mem_cons.mp hmem with heq | hmem
    · exact hne heq
    · exact hnot (habove.mem_iff.mp hmem)
  have hnew : Ends (Function.update up x (some p)) x :=
    Ends.step (Function.update_self ..) ⟨above, habove.update hfree⟩
  obtain ⟨l, hl⟩ := h
  induction l generalizing y with
  | nil =>
    by_cases hy : y = x
    · exact hy ▸ hnew
    · exact Ends.of_none ((Function.update_of_ne hy _ _).trans hl)
  | cons q l ih =>
    have hy : y ≠ x := by
      intro heq
      rw [heq] at hl
      exact absurd (hx.symm.trans hl.1) (by simp)
    exact Ends.step ((Function.update_of_ne hy _ _).trans hl.1) (ih hl.2)

end update

end Ascent

end Ceres.Library
