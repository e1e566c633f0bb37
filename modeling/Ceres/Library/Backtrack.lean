/-
  File:      Ceres/Library/Backtrack.lean
  Subject:   MATCHING BY BACKTRACKING.

  A pattern is a sequence of literals and choices. A choice takes the front off a text in one of several ways,
  which it tries in an order of its own; the first way for which the rest of the pattern matches the rest of
  the text is taken.

  * `Choice`, `Piece`, `fullmatch` -- the match of a whole text, with the texts of its choices;
  * `ReadsAs` -- the readings of a text, whichever is tried first; `reads_of_fullmatch` -- a match is one;
  * **`fullmatch_preferred`** -- the reading whose every choice comes first is the match.
-/
import Mathlib.Tactic

namespace Ceres.Library

variable {α : Type}

/-! ## 1. Patterns -/

/-- The ways to take the front off a text, the preferred ones first. -/
structure Choice (α : Type) where
  splits : List α → List (List α × List α)
  whole : ∀ text, ∀ split ∈ splits text, split.1 ++ split.2 = text

inductive Piece (α : Type) where
  | literal (text : List α)
  | choice (choice : Choice α)

/-- The texts of the choices in the first way that takes the whole text. -/
def fullmatch [DecidableEq α] : List (Piece α) → List α → Option (List (List α))
  | [], text => if text = [] then some [] else none
  | .literal l :: rest, text => if l <+: text then fullmatch rest (text.drop l.length) else none
  | .choice c :: rest, text =>
    (c.splits text).findSome? fun split => (fullmatch rest split.2).map (split.1 :: ·)

/-- A text read by a pattern, with the texts of its choices. -/
inductive ReadsAs : List (Piece α) → List α → List (List α) → Prop where
  | nil : ReadsAs [] [] []
  | literal {l : List α} {rest : List (Piece α)} {text : List α} {groups : List (List α)}
    (h : ReadsAs rest text groups) : ReadsAs (.literal l :: rest) (l ++ text) groups
  | choice {c : Choice α} {rest : List (Piece α)} {a text : List α} {groups : List (List α)}
    (hsplit : (a, text) ∈ c.splits (a ++ text)) (h : ReadsAs rest text groups) :
    ReadsAs (.choice c :: rest) (a ++ text) (a :: groups)

/-! ## 2. The match -/

section Matching

variable [DecidableEq α]

theorem reads_of_fullmatch : ∀ {pieces : List (Piece α)} {text : List α} {groups : List (List α)},
    fullmatch pieces text = some groups → ReadsAs pieces text groups
  | [], text, groups, h => by
    unfold fullmatch at h
    split at h
    · rename_i htext
      obtain rfl := Option.some.inj h
      rw [htext]
      exact .nil
    · cases h
  | .literal l :: rest, text, groups, h => by
    unfold fullmatch at h
    split at h
    · rename_i hprefix
      obtain ⟨t, rfl⟩ := hprefix
      rw [List.drop_left] at h
      exact .literal (reads_of_fullmatch h)
    · cases h
  | .choice c :: rest, text, groups, h => by
    unfold fullmatch at h
    obtain ⟨split, hsplit, hmap⟩ := List.exists_of_findSome?_eq_some h
    obtain ⟨others, hothers, rfl⟩ := Option.map_eq_some_iff.mp hmap
    obtain ⟨a, t⟩ := split
    obtain rfl : a ++ t = text := c.whole text _ hsplit
    exact .choice hsplit (reads_of_fullmatch hothers)

/-- A text read with every choice's first way. -/
inductive Preferred : List (Piece α) → List α → List (List α) → Prop where
  | nil : Preferred [] [] []
  | literal {l : List α} {rest : List (Piece α)} {text : List α} {groups : List (List α)}
    (h : Preferred rest text groups) : Preferred (.literal l :: rest) (l ++ text) groups
  | choice {c : Choice α} {rest : List (Piece α)} {a text : List α} {groups : List (List α)}
    (hfirst : (c.splits (a ++ text)).head? = some (a, text)) (h : Preferred rest text groups) :
    Preferred (.choice c :: rest) (a ++ text) (a :: groups)

/-- **The reading whose every choice comes first** is the match. -/
theorem fullmatch_preferred {pieces : List (Piece α)} {text : List α} {groups : List (List α)}
    (h : Preferred pieces text groups) : fullmatch pieces text = some groups := by
  induction h with
  | nil => rfl
  | @literal l rest text groups _ ih =>
    rw [fullmatch, if_pos (List.prefix_append l text), List.drop_left]
    exact ih
  | @choice c rest a text groups hfirst _ ih =>
    obtain ⟨others, hsplits⟩ := List.head?_eq_some_iff.mp hfirst
    rw [fullmatch, hsplits, List.findSome?_cons, ih]
    rfl

end Matching

/-! ## 3. Runs of characters and fixed words -/

/-- As many characters of a kind as there are, from `most` down to `least`. -/
def Choice.run (kind : α → Bool) (least most : Nat) : Choice α where
  splits text := ((List.range' least (most + 1 - least)).reverse.filter fun n =>
    decide (n ≤ text.length) && (text.take n).all kind).map fun n => (text.take n, text.drop n)
  whole text split hsplit := by
    obtain ⟨n, -, rfl⟩ := List.mem_map.mp hsplit
    exact List.take_append_drop n text

/-- The first of the words that the text begins with. -/
def Choice.words [DecidableEq α] (words : List (List α)) : Choice α where
  splits text := (words.filter fun word => decide (word <+: text)).map fun word => (word, text.drop word.length)
  whole text split hsplit := by
    obtain ⟨word, hword, rfl⟩ := List.mem_map.mp hsplit
    obtain ⟨t, rfl⟩ := of_decide_eq_true (List.mem_filter.mp hword).2
    exact congrArg (word ++ ·) (List.drop_left ..)

theorem head_run {kind : α → Bool} {least most : Nat} (hle : least ≤ most) {a : List α} (text : List α)
    (hlength : a.length = most) (hkind : a.all kind = true) :
    ((Choice.run kind least most).splits (a ++ text)).head? = some (a, text) := by
  have hrange : List.range' least (most + 1 - least) = List.range' least (most - least) ++ [most] := by
    rw [Nat.sub_add_comm hle, List.range'_concat, Nat.one_mul, Nat.add_sub_cancel' hle]
  have hfits : (decide (most ≤ (a ++ text).length) && ((a ++ text).take most).all kind) = true := by
    rw [← hlength, List.take_left, hkind]
    simp
  simp only [Choice.run, hrange, List.reverse_append, List.reverse_singleton, List.singleton_append]
  rw [List.filter_cons, if_pos hfits, List.map_cons, List.head?_cons, ← hlength, List.take_left, List.drop_left]

theorem head_words [DecidableEq α] {words : List (List α)}
    (hapart : ∀ a ∈ words, ∀ b ∈ words, a <+: b → a = b) {a : List α} (ha : a ∈ words) (text : List α) :
    ((Choice.words words).splits (a ++ text)).head? = some (a, text) := by
  have hsame : ∀ word ∈ words.filter (fun word => decide (word <+: a ++ text)), word = a := by
    intro word hword
    obtain ⟨hmem, hprefix⟩ := List.mem_filter.mp hword
    rcases List.prefix_or_prefix_of_prefix (of_decide_eq_true hprefix) (List.prefix_append a text) with h | h
    · exact hapart word hmem a ha h
    · exact (hapart a ha word hmem h).symm
  have hfound : a ∈ words.filter fun word => decide (word <+: a ++ text) :=
    List.mem_filter.mpr ⟨ha, decide_eq_true (List.prefix_append a text)⟩
  obtain ⟨first, others, hlist⟩ := List.exists_cons_of_ne_nil (List.ne_nil_of_mem hfound)
  obtain rfl : first = a := hsame first (hlist ▸ List.mem_cons_self)
  simp only [Choice.words, hlist, List.map_cons, List.head?_cons, List.drop_left]

end Ceres.Library
