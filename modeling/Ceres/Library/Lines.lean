/-
  File:      Ceres/Library/Lines.lean
  Subject:   RECORDS OF LINES, read from bytes that may end in the middle of one.

  Physical lines end in a newline; a record is one line or several, and is complete where a test of
  its bytes says so.

  * `physicalFrom`, `group`, `records` -- the lines, the records they make up;
  * `IsUnit` -- bytes that are one record: the test holds at their last newline and at none before;
  * **`records_units`** -- records written one behind the other are read back;
    **`records_torn`** -- the start of a record is not taken for one.
-/
import Mathlib.Tactic

namespace Ceres.Library

/-- The lines of some bytes, `pending` being the start of the current one; a last line without its
    newline counts as absent. -/
def physicalFrom (pending : List UInt8) : List UInt8 → List (List UInt8)
  | [] => []
  | byte :: bytes =>
    if byte = 10 then (pending ++ [byte]) :: physicalFrom [] bytes
    else physicalFrom (pending ++ [byte]) bytes

/-- Join lines until they are complete. -/
def group (complete : List UInt8 → Bool) (pending : List UInt8) :
    List (List UInt8) → List (List UInt8)
  | [] => []
  | line :: lines =>
    if complete (pending ++ line) then (pending ++ line) :: group complete [] lines
    else group complete (pending ++ line) lines

def records (complete : List UInt8 → Bool) (bytes : List UInt8) : List (List UInt8) :=
  group complete [] (physicalFrom [] bytes)

/-- The bytes of one record. -/
structure IsUnit (complete : List UInt8 → Bool) (unit : List UInt8) : Prop where
  ends : ∃ body, unit = body ++ [10]
  closed : complete unit = true
  opened : ∀ head tail, unit = head ++ 10 :: tail → tail ≠ [] → complete (head ++ [10]) = false

variable {complete : List UInt8 → Bool} {unit : List UInt8}

theorem IsUnit.ne_nil (h : IsUnit complete unit) : unit ≠ [] := by
  obtain ⟨body, rfl⟩ := h.ends
  simp

/-- The walk through one record, `g` and `p` being what was read of it so far. -/
theorem group_unit (h : IsUnit complete unit) (rest : List UInt8) :
    ∀ (t g p : List UInt8), t ≠ [] → unit = g ++ p ++ t → group complete g (physicalFrom p (t ++ rest)) =
        unit :: group complete [] (physicalFrom [] rest) := by
  intro t
  induction t with
  | nil =>
    intro g p hne
    exact absurd rfl hne
  | cons byte t ih =>
    intro g p _ hunit
    rw [List.cons_append, physicalFrom]
    by_cases hnewline : byte = 10
    · subst hnewline
      rw [if_pos rfl, group]
      by_cases hlast : t = []
      · subst hlast
        have hwhole : g ++ (p ++ [10]) = unit := by rw [hunit, List.append_assoc]
        rw [hwhole, if_pos h.closed, List.nil_append]
      · have hopen : complete (g ++ (p ++ [10])) = false := by
          rw [← List.append_assoc]
          exact h.opened (g ++ p) t (by rw [hunit]) hlast
        rw [if_neg (by simp [hopen])]
        exact ih (g ++ (p ++ [10])) [] hlast (by rw [hunit]; simp)
    · rw [if_neg hnewline]
      have hmore : t ≠ [] := by
        rintro rfl
        obtain ⟨body, hbody⟩ := h.ends
        have hlast := congrArg List.getLast? (hunit.symm.trans hbody)
        simp only [List.getLast?_concat] at hlast
        exact hnewline (Option.some.inj hlast)
      exact ih g (p ++ [byte]) hmore (by rw [hunit]; simp)

theorem group_torn (h : IsUnit complete unit) :
    ∀ (t g p tail : List UInt8), tail ≠ [] → unit = g ++ p ++ t ++ tail →
      group complete g (physicalFrom p t) = [] := by
  intro t
  induction t with
  | nil =>
    intro g p tail _ _
    rfl
  | cons byte t ih =>
    intro g p tail htail hunit
    rw [physicalFrom]
    by_cases hnewline : byte = 10
    · subst hnewline
      have hopen : complete (g ++ (p ++ [10])) = false := by
        rw [← List.append_assoc]
        exact h.opened (g ++ p) (t ++ tail) (by rw [hunit]; simp) (by simp [htail])
      rw [if_pos rfl, group, if_neg (by simp [hopen])]
      exact ih (g ++ (p ++ [10])) [] tail htail (by rw [hunit]; simp)
    · rw [if_neg hnewline]
      exact ih g (p ++ [byte]) tail htail (by rw [hunit]; simp)

/-- **Records are read back**, whatever follows them. -/
theorem records_units {units : List (List UInt8)} (h : ∀ unit ∈ units, IsUnit complete unit) (rest : List UInt8) :
    records complete (units.flatten ++ rest) = units ++ records complete rest := by
  induction units with
  | nil => rfl
  | cons unit units ih =>
    have hunit := h unit List.mem_cons_self
    rw [List.flatten_cons, List.append_assoc, records,
      group_unit hunit (units.flatten ++ rest) unit [] [] hunit.ne_nil rfl]
    exact congrArg (unit :: ·) (ih fun other hother => h other (List.mem_cons_of_mem _ hother))

/-- **The start of a record is not taken for one.** -/
theorem records_torn (h : IsUnit complete unit) {torn tail : List UInt8} (htail : tail ≠ [])
    (hunit : unit = torn ++ tail) : records complete torn = [] :=
  group_torn h torn [] [] tail htail (by simpa using hunit)

end Ceres.Library
