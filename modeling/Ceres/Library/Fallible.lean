/-
  File:      Ceres/Library/Fallible.lean
  Subject:   COMPUTATIONS THAT CAN FAIL: what a success says about the steps before it.

  * `bind_eq_ok` -- the first step succeeded, and the next with its result;
  * `forall_of_mapM_ok` -- what holds of every result of a function holds of all the results of a list;
  * `foldlM_mapM` -- folding the results in as they come is folding in the list of them.
-/
import Mathlib.Data.List.Basic

namespace Ceres.Library

/-- Peeling an `Except` computation. -/
theorem bind_eq_ok {ε α γ : Type} {first : Except ε α} {next : α → Except ε γ} {result : γ}
    (h : first >>= next = .ok result) : ∃ a, first = .ok a ∧ next a = .ok result := by
  cases first with
  | error e => cases h
  | ok a => exact ⟨a, rfl, h⟩

theorem forall_of_mapM_ok {α γ ε : Type} {f : α → Except ε γ} {p : γ → Prop}
    (hf : ∀ a c, f a = .ok c → p c) (all : List α) : ∀ {out : List γ}, all.mapM f = .ok out →
      ∀ c ∈ out, p c := by
  induction all with
  | nil =>
    intro out h c hc
    cases h
    cases hc
  | cons first all ih =>
    intro out h c hc
    rw [List.mapM_cons] at h
    obtain ⟨here, hfirst, h⟩ := bind_eq_ok h
    obtain ⟨later, hlater, h⟩ := bind_eq_ok h
    cases h
    rcases List.mem_cons.mp hc with hnow | hthen
    · rw [hnow]
      exact hf first here hfirst
    · exact ih hlater c hthen

theorem foldlM_mapM {α β γ ε : Type} (f : α → Except ε β) (g : γ → β → γ) : ∀ (items : List α) (start : γ),
    items.foldlM (fun done item => do return g done (← f item)) start =
      (do return (← items.mapM f).foldl g start)
  | [], _ => rfl
  | item :: items, start => by
      rw [List.foldlM_cons, List.mapM_cons]
      cases f item with
      | error e => rfl
      | ok result =>
        show items.foldlM _ (g start result) = _
        rw [foldlM_mapM f g items]
        cases items.mapM f with
        | error e => rfl
        | ok results => rfl

end Ceres.Library
