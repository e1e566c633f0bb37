/-
  File:      Ceres/Library/Chunks.lean
  Subject:   A COLUMN IN PREALLOCATED CHUNKS.

  Chunks of one length are allocated full of a fill; rows are written into the last one, in order.

  * `Filled` -- the rows written so far, the rest of the last chunk still the fill;
  * `Filled.allocate`, `Filled.write`, `Filled.leave` -- a new chunk, a row written, a row left as it is;
  * `Filled.flatten_take` -- the last chunk cut off behind its rows, the chunks together are the rows.
-/
import Mathlib.Data.List.ModifyLast

namespace Ceres.Library

variable {α β : Type}

/-- The chunks hold the rows, `row` of them in the last chunk. -/
def Filled (fill : α) (size : Nat) (chunks : List (List α)) (row : Nat) (held : List α) : Prop :=
  (chunks = [] ∧ row = size ∧ held = []) ∨
    ∃ earlier part, chunks = earlier ++ [part ++ List.replicate (size - row) fill] ∧ part.length = row ∧
      row ≤ size ∧ held = earlier.flatten ++ part

variable {fill : α} {size row : Nat} {chunks : List (List α)} {held : List α}

theorem filled_nil : Filled fill size [] size [] := .inl ⟨rfl, rfl, rfl⟩

theorem Filled.row_le (h : Filled fill size chunks row held) : row ≤ size := by
  obtain ⟨_, hrow, _⟩ | ⟨_, _, _, _, hrow, _⟩ := h
  · exact Nat.le_of_eq hrow
  · exact hrow

theorem Filled.allocate (h : Filled fill size chunks size held) :
    Filled fill size (chunks ++ [List.replicate size fill]) 0 held := by
  obtain ⟨rfl, _, rfl⟩ | ⟨earlier, part, rfl, hlength, _, rfl⟩ := h
  · exact .inr ⟨[], [], rfl, rfl, Nat.zero_le _, rfl⟩
  · refine .inr ⟨earlier ++ [part], [], ?_, rfl, Nat.zero_le _, ?_⟩
    · rw [Nat.sub_self, List.replicate_zero, List.append_nil, List.nil_append, Nat.sub_zero]
    · simp

theorem Filled.write (h : Filled fill size chunks row held) (hrow : row < size) (value : α) :
    Filled fill size (chunks.modifyLast (·.set row value)) (row + 1) (held ++ [value]) := by
  obtain ⟨_, hfull, _⟩ | ⟨earlier, part, rfl, hlength, _, rfl⟩ := h
  · exact absurd hfull (Nat.ne_of_lt hrow)
  · have hroom : size - row = size - (row + 1) + 1 := by omega
    refine .inr ⟨earlier, part ++ [value], ?_, ?_, hrow, (List.append_assoc _ _ _).symm ▸ rfl⟩
    · rw [List.modifyLast_concat, hroom, List.replicate_succ, ← hlength, List.set_append_right _ _ (Nat.le_refl _),
        Nat.sub_self, List.set_cons_zero, List.append_assoc, List.singleton_append]
    · rw [List.length_append, hlength, List.length_singleton]

theorem Filled.leave (h : Filled fill size chunks row held) (hrow : row < size) :
    Filled fill size chunks (row + 1) (held ++ [fill]) := by
  obtain ⟨_, hfull, _⟩ | ⟨earlier, part, rfl, hlength, _, rfl⟩ := h
  · exact absurd hfull (Nat.ne_of_lt hrow)
  · have hroom : size - row = size - (row + 1) + 1 := by omega
    refine .inr ⟨earlier, part ++ [fill], ?_, ?_, hrow, (List.append_assoc _ _ _).symm ▸ rfl⟩
    · rw [hroom, List.replicate_succ, List.append_assoc, List.singleton_append]
    · rw [List.length_append, hlength, List.length_singleton]

theorem Filled.flatten_take (h : Filled fill size chunks row held) :
    (chunks.modifyLast (·.take row)).flatten = held := by
  obtain ⟨rfl, _, rfl⟩ | ⟨earlier, part, rfl, hlength, _, rfl⟩ := h
  · rfl
  · rw [List.modifyLast_concat, ← hlength, List.take_left, List.flatten_append, List.flatten_singleton]

/-- Chunks of several columns, seen column by column. -/
theorem map_modifyLast {f : α → β} {g : α → α} {g' : β → β} (h : ∀ a, f (g a) = g' (f a)) (rows : List α) :
    (rows.modifyLast g).map f = (rows.map f).modifyLast g' := by
  obtain rfl | ⟨earlier, last, rfl⟩ := rows.eq_nil_or_concat
  · rfl
  · rw [List.concat_eq_append, List.modifyLast_concat, List.map_append, List.map_append, List.map_singleton,
      List.map_singleton, List.modifyLast_concat, h]

end Ceres.Library
