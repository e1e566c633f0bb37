/-
  File:      Ceres/Component/Schedule.lean
  Subject:   FIRE TIMES OF A TRIGGER (`ceres/schedule.py`).

  A trigger answers with its next fire time at or after a reference. `Trigger.get_fire_times` is a
  generator that asks it again and again. Each time it asks for the SAME reference, the start, and checks
  its bounds before the answer is known.

  * `fireLoop`, `fireTimes` -- the loop, for as many turns as are looked at;
  * `fireLoop_const` -- every time that is yielded is the first;
  * **`fire_times_enumerate_iff`** -- so the enumeration is one exactly when it yields nothing.
-/
import Mathlib.Data.Set.Finite.Basic
import Mathlib.Tactic

namespace Ceres.Component.Schedule

set_option linter.unusedSectionVars false

/-- The next fire time at or after a reference, and the most recent one; times are microseconds. -/
abbrev Trigger : Type := Option Int → Int → Option Int

/-! ## 1. The generator -/

/-- The loop of `get_fire_times`, for a number of turns: what it yields, and whether it has ended. -/
def fireLoop (trigger : Trigger) (start : Int) (end_ count : Option Int) :
    Nat → Int → Nat → List Int × Bool
  | 0, _, _ => ([], false)
  | turns + 1, current, currentCount =>
    if end_.any fun e => decide (e ≤ current) then ([], true)
    else if count.any fun c => decide (c < (currentCount : Int)) then ([], true)
    else
      match trigger none start with
      | none => ([], true)
      | some time =>
        let rest := fireLoop trigger start end_ count turns time (currentCount + 1)
        (time :: rest.1, rest.2)

/-- `Trigger.get_fire_times`. -/
def fireTimes (trigger : Trigger) (start : Int) (end_ count : Option Int) (turns : Nat) :
    List Int × Bool :=
  fireLoop trigger start end_ count turns start 0

/-- What an enumeration of successive fire times is. -/
structure Enumerates (trigger : Trigger) (start : Int) (end_ count : Option Int) : Prop where
  increasing : ∀ turns, (fireTimes trigger start end_ count turns).1.Pairwise (· < ·)
  inside : ∀ turns, ∀ time ∈ (fireTimes trigger start end_ count turns).1,
    start ≤ time ∧ ∀ e ∈ end_, time < e
  atMost : ∀ turns, ∀ c ∈ count, (fireTimes trigger start end_ count turns).1.length ≤ c.toNat
  terminates : (end_.isSome ∨ count.isSome) →
    (∀ e ∈ end_, {time | (∃ previous now, trigger previous now = some time) ∧ time < e}.Finite) →
    ∃ turns, (fireTimes trigger start end_ count turns).2 = true

/-- The loop ends before it asks: the start is past the end, or the count is negative. -/
def Empty (start : Int) (end_ count : Option Int) : Prop :=
  (∃ e ∈ end_, e ≤ start) ∨ ∃ c ∈ count, c < 0

section Loop

variable {trigger : Trigger} {start : Int} {end_ count : Option Int}

/-- **Every time that is yielded is the first**: the reference never moves. -/
theorem fireLoop_const : ∀ (turns : Nat) (current : Int) (currentCount : Nat),
    ∀ time ∈ (fireLoop trigger start end_ count turns current currentCount).1, trigger none start = some time
  | 0, _, _, time, h => by simp [fireLoop] at h
  | turns + 1, current, currentCount, time, h => by
      rw [fireLoop] at h
      split at h
      · simp at h
      · split at h
        · simp at h
        · cases hnext : trigger none start with
          | none => simp [hnext] at h
          | some first =>
            rw [hnext] at h
            rcases List.mem_cons.mp h with rfl | h
            · rfl
            · rw [← hnext]
              exact fireLoop_const turns first (currentCount + 1) time h

/-- Where the trigger is exhausted or the loop ends at once, nothing is yielded. -/
theorem fireTimes_eq_nil (h : Empty start end_ count ∨ trigger none start = none) (turns : Nat) :
    (fireTimes trigger start end_ count (turns + 1)) = ([], true) := by
  rw [fireTimes, fireLoop]
  split
  · rfl
  · rename_i hend
    split
    · rfl
    · rename_i hcount
      rcases h with (⟨e, he, hle⟩ | ⟨c, hc, hlt⟩) | h
      · rw [Option.mem_def.mp he] at hend
        exact absurd (decide_eq_true hle) hend
      · rw [Option.mem_def.mp hc] at hcount
        exact absurd (decide_eq_true hlt) hcount
      · rw [h]

/-- Otherwise the first time is yielded, whatever the end, and a turn later it is yielded again. -/
theorem fireTimes_first {time : Int} (hempty : ¬ Empty start end_ count)
    (hnext : trigger none start = some time) : (fireTimes trigger start end_ count 1).1 = [time] ∧
      ((∀ e ∈ end_, time < e) → (∀ c ∈ count, 1 ≤ c) →
        (fireTimes trigger start end_ count 2).1 = [time, time]) := by
  have hend : (end_.any fun e => decide (e ≤ start)) = false := by
    cases end_ with
    | none => rfl
    | some e => exact decide_eq_false fun hle => hempty (.inl ⟨e, rfl, hle⟩)
  have hcount : (count.any fun c => decide (c < ((0 : Nat) : Int))) = false := by
    cases count with
    | none => rfl
    | some c => exact decide_eq_false fun hlt => hempty (.inr ⟨c, rfl, hlt⟩)
  refine ⟨?_, fun hbefore hatLeast => ?_⟩
  · simp only [fireTimes, fireLoop, hend, hcount, hnext, Bool.false_eq_true, if_false]
  · have hend' : (end_.any fun e => decide (e ≤ time)) = false := by
      cases end_ with
      | none => rfl
      | some e => exact decide_eq_false (not_le.mpr (hbefore e rfl))
    have hcount' : (count.any fun c => decide (c < ((1 : Nat) : Int))) = false := by
      cases count with
      | none => rfl
      | some c => exact decide_eq_false (not_lt.mpr (hatLeast c rfl))
    simp only [fireTimes, fireLoop, hend, hcount, hnext, hend', hcount', zero_add, Bool.false_eq_true,
      if_false]

end Loop

/-- **`get_fire_times` enumerates successive fire times exactly when it yields nothing**: the trigger is
    exhausted at the start, or the loop ends before it asks. Else its first time comes out even where it
    lies past the end or none is wanted, and is repeated where it does not. -/
theorem fire_times_enumerate_iff (trigger : Trigger) (start : Int) (end_ count : Option Int) :
    Enumerates trigger start end_ count ↔
      Empty start end_ count ∨ trigger none start = none := by
  constructor
  · intro h
    by_contra hno
    obtain ⟨hempty, hsome⟩ := not_or.mp hno
    obtain ⟨time, hnext⟩ := Option.ne_none_iff_exists'.mp hsome
    obtain ⟨hone, htwo⟩ := fireTimes_first hempty hnext
    have hbefore : ∀ e ∈ end_, time < e := fun e he =>
      (h.inside 1 time (by rw [hone]; exact List.mem_singleton_self time)).2 e he
    have hatLeast : ∀ c ∈ count, 1 ≤ c := by
      intro c hc
      have hlength := h.atMost 1 c hc
      rw [hone, List.length_singleton] at hlength
      omega
    have hincreasing := h.increasing 2
    rw [htwo hbefore hatLeast] at hincreasing
    exact lt_irrefl time ((List.pairwise_cons.mp hincreasing).1 time (List.mem_singleton_self time))
  · intro h
    have hnil : ∀ turns, (fireTimes trigger start end_ count turns).1 = [] := by
      intro turns
      cases turns with
      | zero => rfl
      | succ turns => rw [fireTimes_eq_nil h turns]
    refine ⟨fun turns => ?_, fun turns time htime => ?_, fun turns c _ => ?_, fun _ _ => ⟨1, ?_⟩⟩
    · rw [hnil turns]
      exact .nil
    · rw [hnil turns] at htime
      exact absurd htime List.not_mem_nil
    · rw [hnil turns]
      exact Nat.zero_le _
    · rw [fireTimes_eq_nil h 0]

/-- Every ten seconds from a start on, in microseconds. -/
def everyTenSeconds : Trigger := fun _ now => some ((now + 9999999) / 10000000 * 10000000)

/-- Three times are asked for, and the start comes four times. -/
theorem ten_seconds_repeat : fireTimes everyTenSeconds 0 none (some 3) 5 = ([0, 0, 0, 0], true) ∧
    ¬ Enumerates everyTenSeconds 0 none (some 3) := by
  refine ⟨by decide, fun h => ?_⟩
  exact absurd (h.atMost 5 3 rfl) (by decide)

end Ceres.Component.Schedule
