/-
  File:      Ceres/Library/Occurrences.lean
  Subject:   THE OCCURRENCES OF A WORD, from left to right and without overlap.

  This is what a search for a word that starts again behind each match finds. It does not matter whether the
  text is there as a whole or comes in two parts, if the second search starts behind the last occurrence.

  * `occurrences` -- the positions; `endOf` -- the end of the last;
  * `occurrences_word_append`, `occurrences_cons` -- a text that begins with the word, and one that does not;
  * `occurrences_le`, `occurrences_spec` -- they lie in the text, apart from each other;
  * **`occurrences_append`** -- a text in two parts.
-/
import Mathlib.Tactic

namespace Ceres.Library

variable {α : Type} [DecidableEq α]

/-- A scan at a position that skips so many elements first. -/
def scan (word : List α) : Nat → Nat → List α → List Nat
  | _, _, [] => []
  | skip + 1, position, _ :: rest => scan word skip (position + 1) rest
  | 0, position, a :: rest =>
    if word <+: a :: rest then position :: scan word (word.length - 1) (position + 1) rest
    else scan word 0 (position + 1) rest

/-- Where the word occurs. -/
def occurrences (word text : List α) : List Nat := scan word 0 0 text

/-- The end of the last occurrence, 0 without one. -/
def endOf (word : List α) (positions : List Nat) : Nat := (positions.getLast?.map (· + word.length)).getD 0

theorem scan_add (word : List α) (n : Nat) : ∀ (text : List α) (skip position : Nat),
    scan word skip (n + position) text = (scan word skip position text).map (n + ·)
  | [], skip, position => by cases skip <;> rfl
  | a :: rest, skip + 1, position => scan_add word n rest skip (position + 1)
  | a :: rest, 0, position => by
    rw [scan, scan]
    split
    · rw [List.map_cons, ← scan_add word n rest]
      rfl
    · rw [← scan_add word n rest]
      rfl

theorem scan_skip (word : List α) : ∀ (skip position : Nat) (text : List α),
    scan word skip position text = scan word 0 (position + skip) (text.drop skip)
  | 0, _, _ => rfl
  | skip + 1, position, [] => rfl
  | skip + 1, position, a :: rest => by
    rw [scan, scan_skip word skip (position + 1) rest, List.drop_succ_cons]
    congr 1
    omega

@[simp] theorem occurrences_nil (word : List α) : occurrences word [] = [] := rfl

variable {word : List α}

theorem occurrences_cons {a : α} {rest : List α} (h : ¬ word <+: a :: rest) :
    occurrences word (a :: rest) = (occurrences word rest).map (1 + ·) := by
  rw [occurrences, scan, if_neg h, occurrences, ← scan_add]

theorem occurrences_word_append (hword : word ≠ []) (text : List α) :
    occurrences word (word ++ text) = 0 :: (occurrences word text).map (word.length + ·) := by
  obtain ⟨a, rest, rfl⟩ := List.exists_cons_of_ne_nil hword
  rw [occurrences, List.cons_append, scan, if_pos ⟨text, rfl⟩, scan_skip, occurrences, ← scan_add]
  congr 2
  · simp
    omega
  · simp

theorem occurrences_le (hword : word ≠ []) {position : Nat} : ∀ {text : List α},
    position ∈ occurrences word text → position + word.length ≤ text.length := by
  intro text
  induction hlength : text.length using Nat.strong_induction_on generalizing text position with
  | _ length ih =>
    subst hlength
    intro h
    cases text with
    | nil => cases h
    | cons a rest =>
      by_cases hprefix : word <+: a :: rest
      · obtain ⟨behind, htext⟩ := hprefix
        rw [← htext] at h ⊢
        rw [occurrences_word_append hword] at h
        rcases List.mem_cons.mp h with rfl | h
        · simp
        · obtain ⟨later, hlater, rfl⟩ := List.mem_map.mp h
          have hpositive := List.length_pos_iff.mpr hword
          have hle := ih behind.length (by rw [← htext, List.length_append]; omega) rfl hlater
          rw [List.length_append]
          omega
      · rw [occurrences_cons hprefix] at h
        obtain ⟨later, hlater, rfl⟩ := List.mem_map.mp h
        have hle := ih rest.length (by simp) rfl hlater
        rw [List.length_cons]
        omega

/-- The word is at each of them, and they do not overlap. -/
theorem occurrences_spec (hword : word ≠ []) : ∀ text : List α,
    (∀ position ∈ occurrences word text, word <+: text.drop position) ∧
      (occurrences word text).Pairwise fun position later => position + word.length ≤ later := by
  intro text
  induction hlength : text.length using Nat.strong_induction_on generalizing text with
  | _ length ih =>
    subst hlength
    cases text with
    | nil => exact ⟨fun position h => absurd h List.not_mem_nil, .nil⟩
    | cons a rest =>
      by_cases hprefix : word <+: a :: rest
      · obtain ⟨behind, htext⟩ := hprefix
        have hpositive := List.length_pos_iff.mpr hword
        obtain ⟨hat, hapart⟩ := ih behind.length (by rw [← htext, List.length_append]; omega) behind rfl
        rw [← htext, occurrences_word_append hword]
        refine ⟨List.forall_mem_cons.mpr ⟨⟨behind, rfl⟩, fun position hposition => ?_⟩,
          List.pairwise_cons.mpr ⟨fun position hposition => ?_, List.pairwise_map.mpr (hapart.imp fun hle => ?_)⟩⟩
        · obtain ⟨later, hlater, rfl⟩ := List.mem_map.mp hposition
          rw [← List.drop_drop, List.drop_left]
          exact hat later hlater
        · obtain ⟨later, -, rfl⟩ := List.mem_map.mp hposition
          omega
        · omega
      · obtain ⟨hat, hapart⟩ := ih rest.length (by simp) rest rfl
        rw [occurrences_cons hprefix]
        refine ⟨fun position hposition => ?_, List.pairwise_map.mpr (hapart.imp fun hle => by omega)⟩
        obtain ⟨later, hlater, rfl⟩ := List.mem_map.mp hposition
        rw [Nat.add_comm, List.drop_succ_cons]
        exact hat later hlater

omit [DecidableEq α] in
theorem endOf_map (word : List α) (n : Nat) {positions : List Nat} (h : positions ≠ []) :
    endOf word (positions.map (n + ·)) = n + endOf word positions := by
  obtain ⟨front, last, rfl⟩ := (List.eq_nil_or_concat positions).resolve_left h
  simp [endOf]
  omega

omit [DecidableEq α] in
theorem endOf_cons (word : List α) (positions : List Nat) :
    endOf word (0 :: positions.map (word.length + ·)) = word.length + endOf word positions := by
  rcases eq_or_ne positions [] with rfl | h
  · simp [endOf]
  · have hmap := endOf_map word word.length h
    obtain ⟨first, rest, rfl⟩ := List.exists_cons_of_ne_nil h
    rw [← hmap]
    rfl

/-- **A text in two parts.** -/
theorem occurrences_append (hword : word ≠ []) (more : List α) : ∀ text : List α,
    occurrences word (text ++ more) = occurrences word text ++
      (occurrences word (text.drop (endOf word (occurrences word text)) ++ more)).map
        (endOf word (occurrences word text) + ·) := by
  intro text
  induction hlength : text.length using Nat.strong_induction_on generalizing text with
  | _ length ih =>
    subst hlength
    have hpositive := List.length_pos_iff.mpr hword
    rcases eq_or_ne (occurrences word text) [] with hnone | hsome
    · simp [hnone, endOf]
    · cases text with
      | nil => exact absurd rfl hsome
      | cons a rest =>
        by_cases hprefix : word <+: a :: rest
        · obtain ⟨behind, htext⟩ := hprefix
          have hdrop : (word ++ behind).drop (word.length + endOf word (occurrences word behind)) =
              behind.drop (endOf word (occurrences word behind)) := by
            rw [← List.drop_drop, List.drop_left]
          rw [← htext, List.append_assoc, occurrences_word_append hword, occurrences_word_append hword,
            endOf_cons word, ih behind.length (by rw [← htext, List.length_append]; omega) behind rfl, hdrop,
            List.map_append, List.map_map, List.cons_append]
          simp [Function.comp_def, add_assoc]
        · have hrest : occurrences word rest ≠ [] := by
            intro hnil
            rw [occurrences_cons hprefix, hnil] at hsome
            exact hsome rfl
          have hmore : ¬ word <+: a :: (rest ++ more) := by
            obtain ⟨position, hposition⟩ := List.exists_mem_of_ne_nil _ hrest
            have hle := occurrences_le hword hposition
            rintro hlonger
            refine hprefix (List.prefix_of_prefix_length_le hlonger (List.prefix_append (a :: rest) more) ?_)
            rw [List.length_cons]
            omega
          rw [List.cons_append, occurrences_cons hmore, occurrences_cons hprefix, endOf_map word 1 hrest,
            ih rest.length (by simp) rest rfl, List.map_append, List.map_map]
          simp [Function.comp_def, add_assoc, Nat.add_comm 1]

end Ceres.Library
