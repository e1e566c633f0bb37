/-
  File:      Ceres/Library/Wildcard.lean
  Subject:   `GLOB` AND `LIKE` PATTERNS.

  A pattern is a text; read, it is a list of tokens, each a wildcard for any text or a test for one
  character (`Token`). `globTokens` reads `*`, `?` and `[...]`, `likeTokens` reads `%`, `_` and an
  escape character, and `matchTokens` matches.

  * `matchTokens_append`, `matchTokens_lits`, `matchTokens_star` -- how a pattern's parts compose;
  * `globTokens_escape`, `likeTokens_escape` -- **an escaped text is read as that text**, whatever
    follows it.
-/
import Mathlib.Tactic

namespace Ceres.Library

/-- Texts are lists of characters, compared by code point. -/
abbrev Text : Type := List Char

theorem not_mem_of_mem_splitOn {separator : Char} {text piece : Text} (h : piece ∈ text.splitOn separator) :
    separator ∉ piece := by
  induction text generalizing piece with
  | nil =>
    rw [List.splitOn_nil, List.mem_singleton] at h
    rw [h]
    exact List.not_mem_nil
  | cons c text ih =>
    rw [List.splitOn_cons_eq_if_modifyHead] at h
    by_cases hc : (c == separator) = true
    · rw [if_pos hc] at h
      rcases List.mem_cons.mp h with rfl | h
      · exact List.not_mem_nil
      · exact ih h
    · rw [if_neg hc] at h
      obtain ⟨first, rest, hsplit⟩ := List.exists_cons_of_ne_nil (List.splitOn_ne_nil separator text)
      rw [hsplit, List.modifyHead_cons] at h
      rw [hsplit] at ih
      rcases List.mem_cons.mp h with rfl | h
      · rw [List.mem_cons, not_or]
        exact ⟨fun heq => hc (heq ▸ beq_self_eq_true c), ih List.mem_cons_self⟩
      · exact ih (List.mem_cons_of_mem _ h)

/-! ## 1. Tokens -/

/-- One piece of a pattern: any text, or one character that passes a test. -/
inductive Token where
  | star
  | one (test : Char → Bool)

namespace Token

/-- A character that stands for itself. -/
def lit (c : Char) : Token := one fun d => d == c

/-- Any one character. -/
def any : Token := one fun _ => true

/-- No character: what an unfinished pattern comes to. -/
def never : Token := one fun _ => false

end Token

/-- Some suffix of the text passes. -/
def anySuffix (f : Text → Bool) : Text → Bool
  | [] => f []
  | c :: s => f (c :: s) || anySuffix f s

/-- Whether the tokens match a text whole. -/
def matchTokens : List Token → Text → Bool
  | [] => fun s => s.isEmpty
  | .one test :: tokens => fun s =>
    match s with
    | [] => false
    | c :: s => test c && matchTokens tokens s
  | .star :: tokens => anySuffix (matchTokens tokens)

theorem anySuffix_iff (f : Text → Bool) : ∀ s : Text, anySuffix f s = true ↔ ∃ a b, s = a ++ b ∧ f b = true
  | [] => by
      rw [anySuffix]
      constructor
      · intro h
        exact ⟨[], [], rfl, h⟩
      · rintro ⟨a, b, h, hb⟩
        obtain ⟨-, rfl⟩ := List.append_eq_nil_iff.mp h.symm
        exact hb
  | c :: s => by
      rw [anySuffix, Bool.or_eq_true, anySuffix_iff f s]
      constructor
      · rintro (h | ⟨a, b, rfl, hb⟩)
        · exact ⟨[], c :: s, rfl, h⟩
        · exact ⟨c :: a, b, rfl, hb⟩
      · rintro ⟨a, b, h, hb⟩
        cases a with
        | nil =>
          rw [List.nil_append] at h
          exact .inl (h ▸ hb)
        | cons d a =>
          rw [List.cons_append, List.cons.injEq] at h
          exact .inr ⟨a, b, h.2, hb⟩

/-- **A pattern matches a concatenation piece by piece.** -/
theorem matchTokens_append : ∀ (p q : List Token) (s : Text),
    matchTokens (p ++ q) s = true ↔ ∃ a b, s = a ++ b ∧ matchTokens p a = true ∧ matchTokens q b = true
  | [], q, s => by
      constructor
      · intro h
        exact ⟨[], s, rfl, rfl, h⟩
      · rintro ⟨a, b, rfl, ha, hb⟩
        rw [matchTokens, List.isEmpty_iff] at ha
        rw [ha]
        exact hb
  | .one test :: p, q, s => by
      cases s with
      | nil =>
        rw [List.cons_append, matchTokens]
        constructor
        · intro h
          simp at h
        · rintro ⟨a, b, h, ha, -⟩
          obtain ⟨rfl, -⟩ := List.append_eq_nil_iff.mp h.symm
          simp [matchTokens] at ha
      | cons c s =>
        rw [List.cons_append, matchTokens, Bool.and_eq_true, matchTokens_append p q s]
        constructor
        · rintro ⟨hc, a, b, rfl, ha, hb⟩
          exact ⟨c :: a, b, rfl, by simp [matchTokens, hc, ha], hb⟩
        · rintro ⟨a, b, h, ha, hb⟩
          cases a with
          | nil => simp [matchTokens] at ha
          | cons d a =>
            rw [List.cons_append, List.cons.injEq] at h
            obtain ⟨rfl, rfl⟩ := h
            simp only [matchTokens, Bool.and_eq_true] at ha
            exact ⟨ha.1, a, b, rfl, ha.2, hb⟩
  | .star :: p, q, s => by
      rw [List.cons_append, matchTokens, anySuffix_iff]
      constructor
      · rintro ⟨a, b, rfl, h⟩
        obtain ⟨b₁, b₂, rfl, h₁, h₂⟩ := (matchTokens_append p q b).mp h
        refine ⟨a ++ b₁, b₂, by rw [List.append_assoc], ?_, h₂⟩
        rw [matchTokens, anySuffix_iff]
        exact ⟨a, b₁, rfl, h₁⟩
      · rintro ⟨a, b, rfl, ha, hb⟩
        rw [matchTokens, anySuffix_iff] at ha
        obtain ⟨a₁, a₂, rfl, ha⟩ := ha
        exact ⟨a₁, a₂ ++ b, by rw [List.append_assoc],
          (matchTokens_append p q _).mpr ⟨a₂, b, rfl, ha, hb⟩⟩

/-- Characters that stand for themselves match themselves only. -/
theorem matchTokens_lits : ∀ (text s : Text), matchTokens (text.map Token.lit) s = true ↔ s = text
  | [], s => by rw [List.map_nil, matchTokens, List.isEmpty_iff]
  | c :: text, s => by
      rw [List.map_cons, Token.lit]
      cases s with
      | nil => simp [matchTokens]
      | cons d s =>
        rw [matchTokens, Bool.and_eq_true, matchTokens_lits text s, List.cons.injEq, beq_iff_eq]

theorem matchTokens_star (s : Text) : matchTokens [.star] s = true := by
  rw [matchTokens, anySuffix_iff]
  exact ⟨s, [], by rw [List.append_nil], rfl⟩

/-- A text and then anything: a prefix. -/
theorem matchTokens_opens (text s : Text) :
    matchTokens (text.map Token.lit ++ [.star]) s = true ↔ ∃ rest, s = text ++ rest := by
  rw [matchTokens_append]
  constructor
  · rintro ⟨a, b, rfl, ha, -⟩
    exact ⟨b, by rw [(matchTokens_lits text a).mp ha]⟩
  · rintro ⟨rest, rfl⟩
    exact ⟨text, rest, rfl, (matchTokens_lits text text).mpr rfl, matchTokens_star rest⟩

/-- Anything and then a text: a suffix. -/
theorem matchTokens_closes (text s : Text) :
    matchTokens (.star :: text.map Token.lit) s = true ↔ ∃ front, s = front ++ text := by
  rw [matchTokens, anySuffix_iff]
  constructor
  · rintro ⟨a, b, rfl, hb⟩
    exact ⟨a, by rw [(matchTokens_lits text b).mp hb]⟩
  · rintro ⟨front, rfl⟩
    exact ⟨front, text, rfl, (matchTokens_lits text text).mpr rfl⟩

theorem matchTokens_within (text s : Text) : matchTokens (.star :: (text.map Token.lit ++ [.star])) s = true ↔
      ∃ front rest, s = front ++ text ++ rest := by
  rw [matchTokens, anySuffix_iff]
  constructor
  · rintro ⟨a, b, rfl, hb⟩
    obtain ⟨rest, rfl⟩ := (matchTokens_opens text b).mp hb
    exact ⟨a, rest, by rw [List.append_assoc]⟩
  · rintro ⟨front, rest, rfl⟩
    exact ⟨front, text ++ rest, by rw [List.append_assoc],
      (matchTokens_opens text _).mpr ⟨rest, rfl⟩⟩

/-! ## 2. `GLOB` -/

mutual

/-- The tokens of a `GLOB` pattern. In a character class `^` inverts, and a `]` in first place is a
    member. -/
def globTokens : Text → List Token
  | [] => []
  | '*' :: pattern => .star :: globTokens pattern
  | '?' :: pattern => .any :: globTokens pattern
  | '[' :: '^' :: ']' :: pattern => inSet true (· == ']') none pattern
  | '[' :: '^' :: pattern => inSet true (fun _ => false) none pattern
  | '[' :: ']' :: pattern => inSet false (· == ']') none pattern
  | '[' :: pattern => inSet false (fun _ => false) none pattern
  | c :: pattern => .lit c :: globTokens pattern

/-- The members of a class, up to the closing bracket; `prior` may start a range. -/
def inSet (invert : Bool) (seen : Char → Bool) (prior : Option Char) : Text → List Token
  | [] => [.never]
  | ']' :: pattern => .one (fun d => seen d != invert) :: globTokens pattern
  | [_] => [.never]
  | c :: high :: pattern =>
    match prior with
    | some low =>
      if c = '-' ∧ high ≠ ']' then
        inSet invert (fun d => seen d || (low ≤ d && d ≤ high)) none pattern
      else inSet invert (fun d => seen d || d == c) (some c) (high :: pattern)
    | none => inSet invert (fun d => seen d || d == c) (some c) (high :: pattern)

end

/-- `text GLOB pattern`. -/
def glob (pattern text : Text) : Bool := matchTokens (globTokens pattern) text

/-- Every occurrence of a character replaced. -/
def replaceChar (c : Char) (by_ : Text) (text : Text) : Text :=
  text.flatMap fun d => if d = c then by_ else [d]

/-- A text with the metacharacters of `GLOB` in classes of their own, the bracket first. -/
def globEscape (text : Text) : Text :=
  replaceChar '?' "[?]".toList (replaceChar '*' "[*]".toList (replaceChar '[' "[[]".toList text))

theorem globEscape_cons (c : Char) (text : Text) : globEscape (c :: text) =
      (if c = '[' ∨ c = '*' ∨ c = '?' then ['[', c, ']'] else [c]) ++ globEscape text := by
  unfold globEscape replaceChar
  rw [List.flatMap_cons, List.flatMap_append, List.flatMap_append]
  congr 1
  by_cases h₁ : c = '['
  · subst h₁
    decide
  · by_cases h₂ : c = '*'
    · subst h₂
      decide
    · by_cases h₃ : c = '?'
      · subst h₃
        decide
      · simp [h₁, h₂, h₃]

theorem globTokens_lit {c : Char} (h : ¬ (c = '[' ∨ c = '*' ∨ c = '?')) (pattern : Text) :
    globTokens (c :: pattern) = .lit c :: globTokens pattern := by
  simp only [not_or] at h
  rw [globTokens]
  all_goals simp_all

theorem globTokens_class {c : Char} (h : c = '[' ∨ c = '*' ∨ c = '?') (pattern : Text) :
    globTokens ('[' :: c :: ']' :: pattern) = .lit c :: globTokens pattern := by
  rcases h with rfl | rfl | rfl <;> simp [globTokens, inSet, Token.lit]

/-- **An escaped text is read as that text.** -/
theorem globTokens_escape : ∀ (text pattern : Text),
    globTokens (globEscape text ++ pattern) = text.map Token.lit ++ globTokens pattern
  | [], _ => rfl
  | c :: text, pattern => by
      rw [globEscape_cons, List.append_assoc, List.map_cons, List.cons_append,
        ← globTokens_escape text pattern]
      split
      · rename_i h
        exact globTokens_class h _
      · rename_i h
        exact globTokens_lit h _

/-! ## 3. `LIKE` -/

/-- The tokens of a `LIKE` pattern, letters compared after `fold`. The character behind the escape
    stands for itself. -/
def likeTokens (escape : Option Char) (fold : Char → Char) : Text → List Token
  | [] => []
  | [c] =>
    if escape = some c then [.never]
    else if c = '%' then [.star]
    else if c = '_' then [.any]
    else [.one fun d => fold d == fold c]
  | c :: d :: pattern =>
    if escape = some c then .one (fun e => fold e == fold d) :: likeTokens escape fold pattern
    else if c = '%' then .star :: likeTokens escape fold (d :: pattern)
    else if c = '_' then .any :: likeTokens escape fold (d :: pattern)
    else .one (fun e => fold e == fold c) :: likeTokens escape fold (d :: pattern)

/-- `text LIKE pattern ESCAPE escape`. -/
def like (escape : Option Char) (fold : Char → Char) (pattern text : Text) : Bool :=
  matchTokens (likeTokens escape fold pattern) text

theorem likeTokens_plain {escape : Option Char} {fold : Char → Char} {c : Char}
    (he : escape ≠ some c) (h₁ : c ≠ '%') (h₂ : c ≠ '_') (pattern : Text) :
    likeTokens escape fold (c :: pattern) =
      .one (fun d => fold d == fold c) :: likeTokens escape fold pattern := by
  cases pattern <;> simp [likeTokens, he, h₁, h₂]

theorem likeTokens_percent {escape : Option Char} {fold : Char → Char} (he : escape ≠ some '%') (pattern : Text) :
    likeTokens escape fold ('%' :: pattern) = .star :: likeTokens escape fold pattern := by
  cases pattern <;> simp [likeTokens, he]

theorem likeTokens_escaped {fold : Char → Char} (e c : Char) (pattern : Text) :
    likeTokens (some e) fold (e :: c :: pattern) =
      .one (fun d => fold d == fold c) :: likeTokens (some e) fold pattern := by
  simp [likeTokens]

/-- A text with its wildcards escaped, the escape character itself not. -/
def likeEscape (e : Char) (text : Text) : Text :=
  replaceChar '_' [e, '_'] (replaceChar '%' [e, '%'] text)

theorem likeEscape_cons {e : Char} (he : e ≠ '_') (c : Char) (text : Text) :
    likeEscape e (c :: text) = (if c = '%' ∨ c = '_' then [e, c] else [c]) ++ likeEscape e text := by
  unfold likeEscape replaceChar
  rw [List.flatMap_cons, List.flatMap_append]
  congr 1
  by_cases h₁ : c = '%'
  · subst h₁
    simp [he]
  · by_cases h₂ : c = '_'
    · subst h₂
      simp
    · simp [h₁, h₂]

/-- **An escaped text is read as that text**, provided it does not hold the escape character. -/
theorem likeTokens_escape {e : Char} (he : e ≠ '_') : ∀ (text pattern : Text), e ∉ text →
    likeTokens (some e) id (likeEscape e text ++ pattern) = text.map Token.lit ++ likeTokens (some e) id pattern
  | [], _, _ => rfl
  | c :: text, pattern, h => by
      rw [List.mem_cons, not_or] at h
      rw [likeEscape_cons he, List.append_assoc, List.map_cons, List.cons_append,
        ← likeTokens_escape he text pattern h.2]
      split
      · exact likeTokens_escaped e c _
      · rename_i hc
        rw [not_or] at hc
        exact likeTokens_plain (fun hec => h.1 (Option.some.inj hec)) hc.1 hc.2 _

end Ceres.Library
