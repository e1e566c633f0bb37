/-
  File:      Ceres/Library/Run.lean
  Subject:   RUNS OF A PARTIAL STEP FUNCTION.

  A system is a step function that an action may not be enabled in. `run` takes a list of actions,
  `Along ok` says that every action is `ok` in the state it is taken in, and `run_inv` is the
  invariant rule: what one `ok` step keeps, a run of them keeps. `Always P` says that `P` holds in every
  state of the run, and `always_iff_along` is the exact rule: for actions that keep `P` exactly when they
  are `ok` the two are one. `along_iff_of_inv` exchanges one condition for another along a whole run, and
  `always_along_iff` is the exact rule for a property of the states and one of the actions together.
-/
import Mathlib.Tactic

namespace Ceres.Library

variable {σ α : Type} (step : σ → α → Option σ)

/-- The state after a list of actions, `none` when one of them is not enabled. -/
def run : σ → List α → Option σ
  | s, [] => some s
  | s, a :: rest => (step s a).bind fun s' => run s' rest

/-- Every action of the run is `ok` in the state it is taken in. -/
def Along (ok : σ → α → Prop) : σ → List α → Prop
  | _, [] => True
  | s, a :: rest => ok s a ∧ ∀ s', step s a = some s' → Along ok s' rest

instance decidableAlong (ok : σ → α → Prop) [∀ s a, Decidable (ok s a)] :
    ∀ (s : σ) (actions : List α), Decidable (Along step ok s actions)
  | _, [] => isTrue trivial
  | s, a :: rest =>
    match h : step s a with
    | none => decidable_of_iff (ok s a) ⟨fun hok => ⟨hok, fun s' hs => by simp [h] at hs⟩, And.left⟩
    | some s' =>
      have := decidableAlong ok s' rest
      decidable_of_iff (ok s a ∧ Along step ok s' rest)
        (and_congr_right fun _ => ⟨fun hrest t ht => by
          rw [h, Option.some.injEq] at ht
          exact ht ▸ hrest, fun hrest => hrest s' h⟩)

variable {step}

theorem run_append : ∀ (actions more : List α) (s : σ),
    run step s (actions ++ more) = (run step s actions).bind fun t => run step t more
  | [], _, _ => rfl
  | a :: actions, more, s => by
      rw [List.cons_append, run, run, Option.bind_assoc]
      exact Option.bind_congr fun s' _ => run_append actions more s'

/-- **The measure rule.** Where every `ok` step takes one from a measure, a run takes its length. -/
theorem run_measure {ok : α → Bool} {measure : σ → Nat}
    (hstep : ∀ s a s', ok a = true → step s a = some s' → measure s' + 1 = measure s) :
    ∀ (actions : List α) (s t : σ), (∀ a ∈ actions, ok a = true) → run step s actions = some t →
      measure t + actions.length = measure s
  | [], s, t, _, h => by
      simp only [run, Option.some.injEq] at h
      exact h ▸ rfl
  | a :: rest, s, t, hok, h => by
      obtain ⟨s', hs', h⟩ := Option.bind_eq_some_iff.mp h
      rw [List.forall_mem_cons] at hok
      rw [← hstep s a s' hok.1 hs', ← run_measure hstep rest s' t hok.2 h, List.length_cons, add_assoc]

/-- **The invariant rule.** -/
theorem run_inv {ok : σ → α → Prop} {I : σ → Prop} (hstep : ∀ s a s', I s → ok s a → step s a = some s' → I s') :
    ∀ (actions : List α) (s t : σ), I s → Along step ok s actions → run step s actions = some t → I t
  | [], s, t, hI, _, h => by
      simp only [run, Option.some.injEq] at h
      exact h ▸ hI
  | a :: rest, s, t, hI, hok, h => by
      rw [run] at h
      obtain ⟨s', hs', h⟩ := Option.bind_eq_some_iff.mp h
      exact run_inv hstep rest s' t (hstep s a s' hI hok.1 hs') (hok.2 s' hs') h

/-- Two conditions on the actions are one along every run, if they are one where an invariant holds. -/
theorem along_iff_of_inv {ok ok' : σ → α → Prop} {I : σ → Prop}
    (hstep : ∀ s a s', I s → step s a = some s' → I s') (hiff : ∀ s a, I s → (ok s a ↔ ok' s a)) :
    ∀ (actions : List α) (s : σ), I s → (Along step ok s actions ↔ Along step ok' s actions)
  | [], _, _ => Iff.rfl
  | a :: rest, s, hI => by
      refine and_congr (hiff s a hI) (forall_congr' fun s' => forall_congr' fun hs' => ?_)
      exact along_iff_of_inv hstep hiff rest s' (hstep s a s' hI hs')

variable (step)

/-- `P` holds in every state of the run, its first and its last among them. -/
def Always (P : σ → Prop) : σ → List α → Prop
  | s, [] => P s
  | s, a :: rest => P s ∧ ∀ s', step s a = some s' → Always P s' rest

variable {step}

theorem Always.first {P : σ → Prop} {s : σ} {actions : List α} (h : Always step P s actions) : P s := by
  cases actions with
  | nil => exact h
  | cons a rest => exact h.1

theorem Always.last {P : σ → Prop} : ∀ {actions : List α} {s t : σ}, Always step P s actions →
    run step s actions = some t → P t
  | [], s, t, h, hrun => by
      obtain rfl := Option.some.inj hrun
      exact h
  | a :: rest, s, t, h, hrun => by
      rw [run] at hrun
      obtain ⟨s', hs', hrun⟩ := Option.bind_eq_some_iff.mp hrun
      exact (h.2 s' hs').last hrun

/-- **The exact rule**: where the invariant `I` holds, an action that leaves `P` is `ok`, and one that is
    `ok` keeps the invariant. -/
theorem always_iff_along {ok : σ → α → Prop} {I P : σ → Prop} (hI : ∀ s, I s → P s)
    (hdisabled : ∀ s a, step s a = none → ok s a) (hleaves : ∀ s a s', I s → step s a = some s' → P s' → ok s a)
    (hkeeps : ∀ s a s', I s → step s a = some s' → ok s a → I s') :
    ∀ (actions : List α) (s : σ), I s → (Always step P s actions ↔ Along step ok s actions)
  | [], s, hs => ⟨fun _ => trivial, fun _ => hI s hs⟩
  | a :: rest, s, hs => by
      constructor
      · intro h
        have hok : ok s a := by
          cases hstep : step s a with
          | none => exact hdisabled s a hstep
          | some s' => exact hleaves s a s' hs hstep (h.2 s' hstep).first
        refine ⟨hok, fun s' hs' => ?_⟩
        have hI' : I s' := hkeeps s a s' hs hs' hok
        exact (always_iff_along hI hdisabled hleaves hkeeps rest s' hI').mp (h.2 s' hs')
      · intro h
        refine ⟨hI s hs, fun s' hs' => ?_⟩
        have hI' : I s' := hkeeps s a s' hs hs' h.1
        exact (always_iff_along hI hdisabled hleaves hkeeps rest s' hI').mpr (h.2 s' hs')

/-- **The exact rule for states and actions**: an action is `ok` and keeps the invariant exactly when it is
    `fine`; so a run is `ok` throughout and every state of it invariant exactly when it is `fine`. -/
theorem always_along_iff {ok fine : σ → α → Prop} {I : σ → Prop}
    (hexact : ∀ s a, I s → ((ok s a ∧ ∀ s', step s a = some s' → I s') ↔ fine s a)) :
    ∀ (actions : List α) (s : σ), I s →
      (Always step I s actions ∧ Along step ok s actions ↔ Along step fine s actions)
  | [], _, hs => ⟨fun _ => trivial, fun _ => ⟨hs, trivial⟩⟩
  | a :: rest, s, hs => by
      constructor
      · rintro ⟨⟨_, halways⟩, hok, halong⟩
        have hfine : fine s a := (hexact s a hs).mp ⟨hok, fun s' hs' => (halways s' hs').first⟩
        refine ⟨hfine, fun s' hs' => ?_⟩
        have hI' : I s' := (halways s' hs').first
        exact (always_along_iff hexact rest s' hI').mp ⟨halways s' hs', halong s' hs'⟩
      · rintro ⟨hfine, halong⟩
        obtain ⟨hok, hkeeps⟩ := (hexact s a hs).mpr hfine
        have hrest := fun s' hs' =>
          (always_along_iff hexact rest s' (hkeeps s' hs')).mpr (halong s' hs')
        exact ⟨⟨hs, fun s' hs' => (hrest s' hs').1⟩, hok, fun s' hs' => (hrest s' hs').2⟩

end Ceres.Library
