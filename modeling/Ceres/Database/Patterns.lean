/-
  File:      Ceres/Database/Patterns.lean
  Subject:   WHAT A PATTERN MATCHES, in memory and compiled (`filter.rs`: `text_matches`, `bytes_match`,
             `match_text_patterns`, `match_bytes_patterns`, `tokenize_bytes`).

  A text pattern compiles to `GLOB` on the SQLite family and to `LIKE` with the escape `^` on PostgreSQL,
  a byte pattern to `instr` and `substr` on the stored bytes and to `LIKE` on their hex tokens.

  * `textMatches`, `bytesMatch` -- the tests in memory;
  * **`text_patterns_literal_iff`** -- a pattern is literal on both dialects exactly if it holds no `^`,
    which `like_escape` leaves as it is;
  * `instr`, `substr` -- the functions of SQLite;
  * `tokenize_infix` -- tokens are found where the bytes are, since only the last character of a token is
    a space;
  * **`byte_patterns_agree`** -- the three tests of a byte pattern are one.
-/
import Ceres.Database.Filter

namespace Ceres.Database

open Ceres.Library
open Ceres.Library.Sql

set_option linter.unusedSectionVars false

/-! ## 1. Text patterns -/

def textMatches (value : Text) (kind : OperationKind) (pattern : Text) : Bool :=
  match kind with
  | .contains => decide (pattern <:+: value)
  | .starts => pattern.isPrefixOf value
  | .ends => pattern.isSuffixOf value

/-- The tokens of a pattern in the wildcards of its kind. -/
def kindTokens (tokens : List Token) : OperationKind → List Token
  | .contains => .star :: (tokens ++ [.star])
  | .starts => tokens ++ [.star]
  | .ends => .star :: tokens

/-- **A text between its wildcards matches what the test in memory does.** -/
theorem matchTokens_kind (text value : Text) (kind : OperationKind) :
    matchTokens (kindTokens (text.map Token.lit) kind) value = textMatches value kind text := by
  rw [Bool.eq_iff_iff]
  cases kind with
  | contains =>
    rw [kindTokens, matchTokens_within, textMatches, decide_eq_true_iff]
    constructor
    · intro ⟨front, rest, h⟩
      exact ⟨front, rest, h.symm⟩
    · intro ⟨front, rest, h⟩
      exact ⟨front, rest, h.symm⟩
  | starts =>
    rw [kindTokens, matchTokens_opens, textMatches, List.isPrefixOf_iff_prefix]
    constructor
    · intro ⟨rest, h⟩
      exact ⟨rest, h.symm⟩
    · intro ⟨rest, h⟩
      exact ⟨rest, h.symm⟩
  | ends =>
    rw [kindTokens, matchTokens_closes, textMatches, List.isSuffixOf_iff_suffix]
    constructor
    · intro ⟨front, h⟩
      exact ⟨front, h.symm⟩
    · intro ⟨front, h⟩
      exact ⟨front, h.symm⟩

theorem globTokens_star (pattern : Text) : globTokens ('*' :: pattern) = .star :: globTokens pattern := by
  rw [globTokens]

theorem globTokens_wildcards (pattern : Text) (kind : OperationKind) :
    globTokens (withWildcards (globEscape pattern) '*' kind) = kindTokens (pattern.map Token.lit) kind := by
  have hstar : globTokens ['*'] = [.star] := by rw [globTokens_star, globTokens]
  cases kind with
  | contains =>
    rw [withWildcards, List.cons_append, globTokens_star, globTokens_escape, hstar]
    rfl
  | starts =>
    rw [withWildcards, globTokens_escape, hstar]
    rfl
  | ends =>
    rw [withWildcards, globTokens_star, ← List.append_nil (globEscape pattern), globTokens_escape, globTokens,
      List.append_nil]
    rfl

/-- What follows the text of a pattern. -/
def wildTail : OperationKind → Text
  | .ends => []
  | _ => ['%']

def wildFront (tokens : List Token) : OperationKind → List Token
  | .starts => tokens
  | _ => .star :: tokens

theorem likeTokens_wildcards (escaped : Text) (kind : OperationKind) :
    likeTokens (some '^') id (withWildcards escaped '%' kind) =
      wildFront (likeTokens (some '^') id (escaped ++ wildTail kind)) kind := by
  cases kind with
  | contains =>
    rw [withWildcards, List.cons_append, likeTokens_percent (by decide)]
    rfl
  | starts => rfl
  | ends =>
    rw [withWildcards, likeTokens_percent (by decide), wildTail, List.append_nil]
    rfl

theorem likeTokens_literal {pattern : Text} (h : '^' ∉ pattern) (kind : OperationKind) :
    likeTokens (some '^') id (withWildcards (likeEscape '^' pattern) '%' kind) =
      kindTokens (pattern.map Token.lit) kind := by
  rw [likeTokens_wildcards, likeTokens_escape (by decide) pattern _ h]
  cases kind with
  | contains => rfl
  | starts => rfl
  | ends =>
    rw [wildTail, likeTokens, List.append_nil]
    rfl

/-! ## 2. The escape character in a pattern -/

theorem likeEscape_append (e : Char) (a b : Text) : likeEscape e (a ++ b) = likeEscape e a ++ likeEscape e b := by
  unfold likeEscape replaceChar
  rw [List.flatMap_append, List.flatMap_append]

variable {tokens : List Token}

theorem matchTokens_star_cons {text : Text} (h : matchTokens tokens text = true) :
    matchTokens (.star :: tokens) text = true := by
  rw [matchTokens, anySuffix_iff]
  exact ⟨[], text, rfl, h⟩

theorem matchTokens_one_cons {test : Char → Bool} {c : Char} {text : Text} (hc : test c = true)
    (h : matchTokens tokens text = true) : matchTokens (.one test :: tokens) (c :: text) = true := by
  simp only [matchTokens, hc, h, Bool.and_self]

theorem not_matchTokens_one {test : Char → Bool} (h : ∀ text, matchTokens tokens text = false) (text : Text) :
    matchTokens (.one test :: tokens) text = false := by
  cases text with
  | nil => rfl
  | cons c text => simp only [matchTokens, h, Bool.and_false]

theorem not_matchTokens_star (h : ∀ text, matchTokens tokens text = false)
    (text : Text) : matchTokens (.star :: tokens) text = false := by
  rw [matchTokens, ← Bool.not_eq_true, anySuffix_iff]
  intro hsome
  obtain ⟨_, rest, _, hrest⟩ := hsome
  rw [h rest] at hrest
  exact Bool.false_ne_true hrest

/-- A pattern ends in an escape character that escapes nothing: PostgreSQL refuses it. -/
def Unfinished (text tail : Text) : Prop :=
  tail = [] ∧ ∀ value, matchTokens (likeTokens (some '^') id (likeEscape '^' text ++ tail)) value = false

/-- Some text no longer than the pattern matches it. -/
def ShortMatch (text tail : Text) (ok : Text → Prop) : Prop :=
  ∃ value : Text, (value.length ≤ text.length ∧ ok value) ∧
    matchTokens (likeTokens (some '^') id (likeEscape '^' text ++ tail)) value = true

theorem escape_step (d : Char) (text tail : Text)
    (h : ShortMatch text tail (fun _ => True) ∨ Unfinished text tail) :
    ShortMatch ('^' :: d :: text) tail (· ≠ '^' :: d :: text) ∨ Unfinished ('^' :: d :: text) tail := by
  have hcons : likeEscape '^' ('^' :: d :: text) ++ tail =
      '^' :: ((if d = '%' ∨ d = '_' then ['^', d] else [d]) ++ (likeEscape '^' text ++ tail)) := by
    rw [likeEscape_cons (by decide), if_neg (by decide), likeEscape_cons (by decide)]
    simp
  have hshorter : ∀ {c : Char} {value : Text}, value.length ≤ text.length →
      (c :: value).length ≤ ('^' :: d :: text).length ∧ c :: value ≠ '^' :: d :: text := by
    intro c value hlength
    refine ⟨by simp only [List.length_cons]; omega, fun heq => ?_⟩
    have hlengths := congrArg List.length heq
    simp only [List.length_cons] at hlengths
    omega
  unfold ShortMatch Unfinished
  rw [hcons]
  by_cases hd : d = '%' ∨ d = '_'
  · rw [if_pos hd, List.cons_append, List.cons_append, List.nil_append, likeTokens_escaped]
    rcases hd with rfl | rfl
    · rw [likeTokens_percent (by decide)]
      rcases h with ⟨value, ⟨hlength, -⟩, hvalue⟩ | ⟨htail, hnone⟩
      · exact .inl ⟨'^' :: value, hshorter hlength, matchTokens_one_cons (by simp) (matchTokens_star_cons hvalue)⟩
      · exact .inr ⟨htail, not_matchTokens_one (not_matchTokens_star hnone)⟩
    · have hany : likeTokens (some '^') id ('_' :: (likeEscape '^' text ++ tail)) =
          .any :: likeTokens (some '^') id (likeEscape '^' text ++ tail) := by
        cases likeEscape '^' text ++ tail <;> simp [likeTokens]
      rw [hany]
      rcases h with ⟨value, ⟨hlength, -⟩, hvalue⟩ | ⟨htail, hnone⟩
      · refine .inl ⟨'^' :: 'x' :: value, ⟨?_, by simp⟩,
          matchTokens_one_cons (by simp) (matchTokens_one_cons rfl hvalue)⟩
        simp only [List.length_cons]
        omega
      · exact .inr ⟨htail, not_matchTokens_one (not_matchTokens_one hnone)⟩
  · rw [if_neg hd, List.cons_append, List.nil_append, likeTokens_escaped]
    rcases h with ⟨value, ⟨hlength, -⟩, hvalue⟩ | ⟨htail, hnone⟩
    · exact .inl ⟨d :: value, hshorter hlength, matchTokens_one_cons (by simp) hvalue⟩
    · exact .inr ⟨htail, not_matchTokens_one hnone⟩

/-- An escape character at the end makes the wildcard behind it literal, or is left over. -/
theorem escape_last (kind : OperationKind) :
    ShortMatch ['^'] (wildTail kind) (· ≠ ['^']) ∨ Unfinished ['^'] (wildTail kind) := by
  cases kind with
  | contains => exact .inl ⟨['%'], ⟨le_refl _, by decide⟩, rfl⟩
  | starts => exact .inl ⟨['%'], ⟨le_refl _, by decide⟩, rfl⟩
  | ends => exact .inr ⟨rfl, fun value => by cases value <;> rfl⟩

theorem likeTokens_cons_of_ne {c : Char} (hc : c ≠ '^') (text tail : Text) :
    likeTokens (some '^') id (likeEscape '^' (c :: text) ++ tail) =
      .lit c :: likeTokens (some '^') id (likeEscape '^' text ++ tail) := by
  have happend := likeEscape_append '^' [c] text
  rw [List.singleton_append] at happend
  rw [happend, List.append_assoc, likeTokens_escape (by decide) [c] _ (by simpa using Ne.symm hc)]
  rfl

/-- **Some text no longer than the pattern matches it**, unless it is unfinished. -/
theorem exists_short_match (kind : OperationKind) : ∀ text : Text,
    ShortMatch text (wildTail kind) (fun _ => True) ∨ Unfinished text (wildTail kind)
  | [] => by
      refine .inl ⟨[], ⟨le_refl _, trivial⟩, ?_⟩
      cases kind <;> rfl
  | [c] => by
      by_cases hc : c = '^'
      · subst hc
        refine (escape_last kind).imp ?_ id
        intro ⟨value, hlength, hvalue⟩
        exact ⟨value, ⟨hlength.1, trivial⟩, hvalue⟩
      · refine .inl ⟨[c], ⟨le_refl _, trivial⟩, ?_⟩
        rw [likeTokens_cons_of_ne hc]
        refine matchTokens_one_cons (by simp) ?_
        cases kind <;> rfl
  | c :: d :: text => by
      by_cases hc : c = '^'
      · subst hc
        refine (escape_step d text _ (exists_short_match kind text)).imp ?_ id
        intro ⟨value, hlength, hvalue⟩
        exact ⟨value, ⟨hlength.1, trivial⟩, hvalue⟩
      · unfold ShortMatch Unfinished
        rw [likeTokens_cons_of_ne hc]
        rcases exists_short_match kind (d :: text) with ⟨value, ⟨hlength, -⟩, hvalue⟩ | ⟨htail, hnone⟩
        · refine .inl ⟨c :: value, ⟨?_, trivial⟩, matchTokens_one_cons (by simp) hvalue⟩
          simp only [List.length_cons] at hlength ⊢
          omega
        · exact .inr ⟨htail, not_matchTokens_one hnone⟩

/-- **A pattern with the escape character matches another text**, or nothing. -/
theorem exists_other_match (kind : OperationKind) : ∀ text : Text, '^' ∈ text →
    ShortMatch text (wildTail kind) (· ≠ text) ∨ Unfinished text (wildTail kind)
  | [], h => absurd h List.not_mem_nil
  | c :: text, h => by
      by_cases hc : c = '^'
      · subst hc
        cases text with
        | nil => exact escape_last kind
        | cons d text => exact escape_step d text _ (exists_short_match kind text)
      · have hmem : '^' ∈ text := (List.mem_cons.mp h).resolve_left (Ne.symm hc)
        unfold ShortMatch Unfinished
        rw [likeTokens_cons_of_ne hc]
        rcases exists_other_match kind text hmem with ⟨value, ⟨hlength, hne⟩, hvalue⟩ | ⟨htail, hnone⟩
        · refine .inl ⟨c :: value, ⟨?_, fun heq => hne (List.cons.inj heq).2⟩,
            matchTokens_one_cons (by simp) hvalue⟩
          simp only [List.length_cons]
          omega
        · exact .inr ⟨htail, not_matchTokens_one hnone⟩

theorem textMatches_self (kind : OperationKind) (text : Text) : textMatches text kind text = true := by
  cases kind with
  | contains => exact decide_eq_true (List.infix_refl text)
  | starts => exact List.isPrefixOf_iff_prefix.mpr (List.prefix_refl text)
  | ends => exact List.isSuffixOf_iff_suffix.mpr (List.suffix_refl text)

theorem not_textMatches_of_short {kind : OperationKind} {text value : Text} (hlength : value.length ≤ text.length)
    (hne : value ≠ text) : textMatches value kind text = false := by
  rw [← Bool.not_eq_true]
  intro h
  have hinside : text <:+: value := by
    cases kind with
    | contains => exact of_decide_eq_true h
    | starts => exact (List.isPrefixOf_iff_prefix.mp h).isInfix
    | ends => exact (List.isSuffixOf_iff_suffix.mp h).isInfix
  exact hne (hinside.eq_of_length_le hlength).symm

/-- The `LIKE` of a pattern with the escape character is not the test in memory. -/
theorem like_differs {pattern : Text} (h : '^' ∈ pattern) (kind : OperationKind) :
    ∃ value, like (some '^') id (withWildcards (likeEscape '^' pattern) '%' kind) value ≠
      textMatches value kind pattern := by
  unfold like
  rw [likeTokens_wildcards]
  rcases exists_other_match kind pattern h with ⟨value, ⟨hlength, hne⟩, hvalue⟩ | ⟨htail, hnone⟩
  · refine ⟨value, ?_⟩
    have hmatch : matchTokens (wildFront (likeTokens (some '^') id (likeEscape '^' pattern ++ wildTail kind))
        kind) value = true := by
      cases kind with
      | contains => exact matchTokens_star_cons hvalue
      | starts => exact hvalue
      | ends => exact matchTokens_star_cons hvalue
    rw [hmatch, not_textMatches_of_short hlength hne]
    decide
  · refine ⟨pattern, ?_⟩
    have hmatch : matchTokens (wildFront (likeTokens (some '^') id (likeEscape '^' pattern ++ wildTail kind))
        kind) pattern = false := by
      cases kind with
      | contains => exact not_matchTokens_star hnone pattern
      | starts => exact hnone pattern
      | ends => exact not_matchTokens_star hnone pattern
    rw [hmatch, textMatches_self]
    decide

/-! ## 3. The compiled condition -/

section Text

variable (lower : Char → Char) (call : String → List Value → Value) (rows : List Row)

theorem eval_textPattern_sqlite {row : Row} {key : String} {value : Text} (h : row key = .text value)
    (kind : OperationKind) (pattern : Text) :
    (textPattern (.column key) kind false pattern .sqliteText).eval (SqlDialect.sqliteText.backend lower call)
      rows row = some (textMatches value kind pattern) := by
  rw [textPattern, if_neg (by decide), eval_glob rows h, glob, globTokens_wildcards, matchTokens_kind]

theorem eval_textPattern_postgres {row : Row} {key : String} {value : Text} (h : row key = .text value)
    (kind : OperationKind) (pattern : Text) :
    (textPattern (.column key) kind false pattern .postgres).eval (SqlDialect.postgres.backend lower call)
      rows row = some (like (some '^') id (withWildcards (likeEscape '^' pattern) '%' kind) value) := by
  rw [textPattern, if_neg (by decide), eval_like rows h]
  rfl

theorem matchTextPatterns_singleton {pattern : Text} (hne : pattern ≠ []) (key : String) (kind : OperationKind)
    (dialect : SqlDialect) : matchTextPatterns (.column key) kind [pattern] dialect false =
      textPattern (.column key) kind false pattern dialect := by
  have hempty : ([pattern].all fun p => p.isEmpty) = false := by simpa using hne
  rw [matchTextPatterns, hempty]
  rfl

/-- The condition of one pattern says what the test in memory says, on every text of the column. -/
def Literal (dialect : SqlDialect) (kind : OperationKind) (pattern : Text) : Prop :=
  ∀ (key : String) (row : Row) (value : Text), row key = .text value →
    (matchTextPatterns (.column key) kind [pattern] dialect false).eval (dialect.backend lower call) rows row =
      some (textMatches value kind pattern)

/-- **Text patterns are literal**: on the SQLite family always, and on PostgreSQL exactly if they do not
    hold the escape character. -/
theorem text_patterns_literal_iff (pattern : Text) (hne : pattern ≠ []) (kind : OperationKind) :
    Literal lower call rows .sqliteText kind pattern ∧
      (Literal lower call rows .postgres kind pattern ↔ '^' ∉ pattern) := by
  refine ⟨fun key row value h => ?_, fun hliteral hmem => ?_, fun hmem key row value h => ?_⟩
  · rw [matchTextPatterns_singleton hne, eval_textPattern_sqlite lower call rows h]
  · obtain ⟨value, hdiffers⟩ := like_differs hmem kind
    have heval := hliteral "" (fun _ => .text value) value rfl
    rw [matchTextPatterns_singleton hne, eval_textPattern_postgres lower call rows rfl] at heval
    exact hdiffers (Option.some.inj heval)
  · rw [matchTextPatterns_singleton hne, eval_textPattern_postgres lower call rows h, like,
      likeTokens_literal hmem, matchTokens_kind]

/-- On PostgreSQL the pattern `^a` matches `a`. -/
theorem caret_not_literal :
    (matchTextPatterns (.column "type") .contains [['^', 'a']] .postgres false).eval
        (SqlDialect.postgres.backend id fun _ _ => .null) [] (fun _ => .text ['a']) = some true ∧
      textMatches ['a'] .contains ['^', 'a'] = false := by
  decide

theorem percent_literal : (['%'] : Text) ≠ [] ∧
    Literal id (fun _ _ => .null) [] .postgres .contains ['%'] :=
  ⟨by decide, (text_patterns_literal_iff id (fun _ _ => .null) [] ['%'] (by decide) .contains).2.mpr (by decide)⟩

end Text

/-! ## 4. Byte patterns -/

/-- The slices of a length, from every place on. -/
def windows {α : Type} (length : Nat) (value : List α) : List (List α) :=
  (List.range (value.length + 1 - length)).map fun start => (value.drop start).take length

def bytesMatch (value : List UInt8) (kind : OperationKind) (pattern : List UInt8) : Bool :=
  match kind with
  | .contains => pattern.isEmpty || (windows pattern.length value).any (· == pattern)
  | .starts => pattern.isPrefixOf value
  | .ends => pattern.isSuffixOf value

theorem mem_windows {α : Type} {value pattern : List α} :
    pattern ∈ windows pattern.length value ↔ pattern <:+: value := by
  unfold windows
  rw [List.mem_map]
  constructor
  · intro ⟨start, _, h⟩
    refine ⟨value.take start, (value.drop start).drop pattern.length, ?_⟩
    have hwhole : value.take start ++ ((value.drop start).take pattern.length ++
        (value.drop start).drop pattern.length) = value := by
      rw [List.take_append_drop, List.take_append_drop]
    rw [h] at hwhole
    rw [List.append_assoc]
    exact hwhole
  · intro ⟨front, rest, h⟩
    subst h
    refine ⟨front.length, ?_, ?_⟩
    · rw [List.mem_range]
      simp only [List.length_append]
      omega
    · rw [List.append_assoc, List.drop_left, List.take_left]

theorem bytesMatch_iff (value : List UInt8) (kind : OperationKind) (pattern : List UInt8) :
    bytesMatch value kind pattern = true ↔ match kind with
      | .contains => pattern <:+: value
      | .starts => pattern <+: value
      | .ends => pattern <:+ value := by
  cases kind with
  | contains =>
    have hany : (windows pattern.length value).any (· == pattern) = true ↔ pattern <:+: value := by
      rw [← mem_windows]
      simp
    simp only [bytesMatch, Bool.or_eq_true, List.isEmpty_iff, hany]
    constructor
    · intro h
      rcases h with rfl | h
      · exact List.nil_infix
      · exact h
    · exact .inr
  | starts => exact List.isPrefixOf_iff_prefix
  | ends => exact List.isSuffixOf_iff_suffix

/-! ## 5. The functions of SQLite -/

/-- Where a slice begins first. -/
def firstAt {α : Type} [BEq α] (needle : List α) : List α → Option Nat
  | [] => if needle.isEmpty then some 0 else none
  | c :: value => if needle.isPrefixOf (c :: value) then some 0 else (firstAt needle value).map (· + 1)

/-- The place of the first occurrence, counted from one, and zero where there is none. -/
def instr {α : Type} [BEq α] (value needle : List α) : Nat := (firstAt needle value).elim 0 (· + 1)

/-- A slice. A start is counted from one, a negative one from the end; where it lies in front of the value,
    the slice is as much shorter. -/
def substr {α : Type} (value : List α) (start : Int) (length : Option Nat) : List α :=
  let taken (from_ : Nat) (length : Option Nat) :=
    match length with
    | none => value.drop from_
    | some length => (value.drop from_).take length
  if start < 0 then
    if 0 ≤ start + value.length then taken (start + value.length).toNat length
    else taken 0 (length.map fun length => (length + (start + value.length)).toNat)
  else if 0 < start then taken (start.toNat - 1) length
  else taken 0 (length.map (· - 1))

/-- The functions on bytes; the others stay a parameter. -/
def sqliteCall (other : String → List Value → Value) (name : String) (args : List Value) : Value :=
  match name, args with
  | "instr", [.blob value, .blob needle] => .integer (instr value needle)
  | "substr", [.blob value, .integer start, .integer length] => .blob (substr value start (some length.toNat))
  | "substr", [.blob value, .integer start] => .blob (substr value start none)
  | name, args => other name args

/-- The function of the migrations of PostgreSQL that its trigram index covers. -/
def postgresCall (other : String → List Value → Value) (name : String) (args : List Value) : Value :=
  match name, args with
  | "ceres_tokenize_bytes", [.blob value] => .text (tokenizeBytes value)
  | name, args => other name args

theorem firstAt_isSome {α : Type} [BEq α] [LawfulBEq α] (needle : List α) :
    ∀ value : List α, (firstAt needle value).isSome ↔ needle <:+: value
  | [] => by
      rw [firstAt]
      cases needle <;> simp
  | c :: value => by
      rw [firstAt, List.infix_cons_iff]
      by_cases h : needle.isPrefixOf (c :: value)
      · rw [if_pos h]
        simp [List.isPrefixOf_iff_prefix.mp h]
      · rw [if_neg h, Option.isSome_map, firstAt_isSome needle value]
        rw [List.isPrefixOf_iff_prefix] at h
        simp [h]

theorem instr_pos {α : Type} [BEq α] [LawfulBEq α] (value needle : List α) :
    0 < instr value needle ↔ needle <:+: value := by
  rw [← firstAt_isSome, instr]
  cases firstAt needle value <;> simp

theorem substr_start {α : Type} (value : List α) (length : Nat) :
    substr value 1 (some length) = value.take length := by
  simp [substr]

theorem substr_end {α : Type} (value : List α) {length : Nat} (hpos : 0 < length) :
    substr value (-length) none = value.drop (value.length - length) := by
  unfold substr
  rw [if_pos (by omega)]
  by_cases h : 0 ≤ -(length : Int) + value.length
  · rw [if_pos h]
    show value.drop (-(length : Int) + value.length).toNat = _
    congr 1
    omega
  · rw [if_neg h]
    show value.drop 0 = _
    congr 1
    omega

/-! ## 6. Hex tokens -/

def token (byte : UInt8) : Text := [hexDigit (byte.toNat / 16), hexDigit (byte.toNat % 16), ' ']

theorem tokenizeBytes_cons (byte : UInt8) (bytes : List UInt8) :
    tokenizeBytes (byte :: bytes) = token byte ++ tokenizeBytes bytes := rfl

theorem hexDigit_spec : ∀ n < 16, hexDigit n ≠ ' ' ∧ hexDigit n ≠ '^' ∧ hexDigit n ≠ '%' ∧ hexDigit n ≠ '_' ∧
    ∀ m < 16, hexDigit n = hexDigit m → n = m := by
  decide

theorem digits_lt (byte : UInt8) : byte.toNat / 16 < 16 ∧ byte.toNat % 16 < 16 := by
  have h := byte.toNat_lt
  omega

theorem token_injective : Function.Injective token := by
  intro a b h
  simp only [token, List.cons.injEq, and_true] at h
  have hhigh := (hexDigit_spec _ (digits_lt a).1).2.2.2.2 _ (digits_lt b).1 h.1
  have hlow := (hexDigit_spec _ (digits_lt a).2).2.2.2.2 _ (digits_lt b).2 h.2
  rw [← UInt8.toNat_inj]
  omega

theorem length_tokenizeBytes (bytes : List UInt8) : (tokenizeBytes bytes).length = 3 * bytes.length := by
  induction bytes with
  | nil => rfl
  | cons byte bytes ih =>
    rw [tokenizeBytes_cons, List.length_append, ih, List.length_cons]
    show 3 + _ = _
    omega

theorem tokenize_prefix {pattern value : List UInt8} :
    tokenizeBytes pattern <+: tokenizeBytes value ↔ pattern <+: value := by
  induction pattern generalizing value with
  | nil => simp [tokenizeBytes]
  | cons byte pattern ih =>
    cases value with
    | nil => simp [tokenizeBytes]
    | cons other value =>
      rw [tokenizeBytes_cons, tokenizeBytes_cons, List.cons_prefix_cons, ← ih]
      constructor
      · intro ⟨rest, h⟩
        rw [List.append_assoc] at h
        obtain ⟨htoken, hrest⟩ := List.append_inj h rfl
        exact ⟨token_injective htoken, rest, hrest⟩
      · intro ⟨heq, rest, h⟩
        exact ⟨rest, by rw [heq, List.append_assoc, h]⟩

theorem drop_tokenizeBytes (value : List UInt8) (n : Nat) :
    (tokenizeBytes value).drop (3 * n) = tokenizeBytes (value.drop n) := by
  induction n generalizing value with
  | zero => rfl
  | succ n ih =>
    cases value with
    | nil => simp [tokenizeBytes]
    | cons byte value =>
      rw [tokenizeBytes_cons, show 3 * (n + 1) = (token byte).length + 3 * n from by
        show _ = 3 + 3 * n
        omega, List.drop_length_add_append, ih, List.drop_succ_cons]

/-- **Only the last character of a token is a space.** -/
theorem space_of_token : ∀ (value : List UInt8) (i : Nat), (tokenizeBytes value)[i]? = some ' ' → i % 3 = 2
  | [], i, h => by simp [tokenizeBytes] at h
  | byte :: value, 0, h => by
      rw [tokenizeBytes_cons] at h
      exact absurd (Option.some.inj h) (hexDigit_spec _ (digits_lt byte).1).1
  | byte :: value, 1, h => by
      rw [tokenizeBytes_cons] at h
      exact absurd (Option.some.inj h) (hexDigit_spec _ (digits_lt byte).2).1
  | byte :: value, 2, _ => rfl
  | byte :: value, i + 3, h => by
      rw [tokenizeBytes_cons] at h
      have hrest := space_of_token value i h
      omega

/-- **A match of the tokens lies on whole bytes.** -/
theorem tokenize_infix {pattern value : List UInt8} (hne : pattern ≠ []) :
    tokenizeBytes pattern <:+: tokenizeBytes value ↔ pattern <:+: value := by
  constructor
  · intro ⟨front, rest, h⟩
    obtain ⟨byte, pattern, rfl⟩ := List.exists_cons_of_ne_nil hne
    -- the space of the first token tells where in the value it lies
    have hspace : (tokenizeBytes value)[front.length + 2]? = some ' ' := by
      rw [← h, List.append_assoc, List.getElem?_append_right (by omega), Nat.add_sub_cancel_left]
      rfl
    have haligned : front.length = 3 * (front.length / 3) := by
      have hmod := space_of_token value _ hspace
      omega
    have hdrop : tokenizeBytes (byte :: pattern) ++ rest = tokenizeBytes (value.drop (front.length / 3)) := by
      rw [← drop_tokenizeBytes, ← haligned, ← h, List.append_assoc, List.drop_left]
    have hpre : byte :: pattern <+: value.drop (front.length / 3) := tokenize_prefix.mp ⟨rest, hdrop⟩
    exact hpre.isInfix.trans (List.drop_suffix _ _).isInfix
  · intro ⟨front, rest, h⟩
    refine ⟨tokenizeBytes front, tokenizeBytes rest, ?_⟩
    rw [← h]
    simp [tokenizeBytes]

theorem tokenize_suffix {pattern value : List UInt8} :
    tokenizeBytes pattern <:+ tokenizeBytes value ↔ pattern <:+ value := by
  constructor
  · intro h
    have hlength := h.length_le
    rw [length_tokenizeBytes, length_tokenizeBytes] at hlength
    rw [List.suffix_iff_eq_drop, length_tokenizeBytes, length_tokenizeBytes, ← Nat.mul_sub,
      drop_tokenizeBytes] at h
    have hpre : pattern <+: value.drop (value.length - pattern.length) :=
      tokenize_prefix.mp (h ▸ List.prefix_refl _)
    have hsame : pattern = value.drop (value.length - pattern.length) := by
      refine hpre.eq_of_length ?_
      rw [List.length_drop]
      omega
    rw [List.suffix_iff_eq_drop]
    exact hsame
  · intro ⟨front, h⟩
    refine ⟨tokenizeBytes front, ?_⟩
    rw [← h]
    simp [tokenizeBytes]

theorem caret_not_mem_tokenizeBytes (bytes : List UInt8) : '^' ∉ tokenizeBytes bytes := by
  unfold tokenizeBytes
  rw [List.mem_flatMap]
  intro ⟨byte, _, h⟩
  rcases List.mem_cons.mp h with h | h
  · exact (hexDigit_spec _ (digits_lt byte).1).2.1 h.symm
  · rcases List.mem_cons.mp h with h | h
    · exact (hexDigit_spec _ (digits_lt byte).2).2.1 h.symm
    · exact absurd (List.mem_singleton.mp h) (by decide)

/-! ## 7. The compiled condition of a byte pattern -/

section Bytes

variable (lower : Char → Char) (other : String → List Value → Value) (rows : List Row)
variable {row : Row} {key : String} {value : List UInt8}

theorem compareValues_blob_eq (a b : List UInt8) :
    compareValues .eq (.blob a) (.blob b) = some (decide (a = b)) := by
  rw [compareValues, if_neg (by simp), accepts_eq]
  simp

theorem compareValues_integer_gt (a b : Int) :
    compareValues .gt (.integer a) (.integer b) = some (decide (b < a)) := by
  rw [compareValues, if_neg (by simp), Option.some.injEq]
  show (cmp (Value.integer a).key (Value.integer b).key == .gt) = decide (b < a)
  rw [Bool.eq_iff_iff, beq_iff_eq, cmp_eq_gt_iff, decide_eq_true_iff]
  simp [Value.key, Prod.Lex.lt_iff]

theorem eval_bytesPattern_sqlite (h : row key = .blob value) (kind : OperationKind) (pattern : List UInt8) :
    (bytesPattern key kind pattern .sqliteText).eval (SqlDialect.sqliteText.backend lower (sqliteCall other))
      rows row = some (bytesMatch value kind pattern) := by
  simp only [bytesPattern]
  by_cases hne : pattern = []
  · subst hne
    cases kind <;> simp [Condition.eval, bytesMatch]
  · rw [if_neg hne]
    have hpos : 0 < pattern.length := List.length_pos_of_ne_nil hne
    cases kind with
    | contains =>
      show compareValues .gt (sqliteCall other "instr" [row key, .blob pattern]) (.integer 0) = _
      rw [h]
      show compareValues .gt (.integer (instr value pattern)) (.integer 0) = _
      rw [compareValues_integer_gt, Option.some.injEq, Bool.eq_iff_iff, decide_eq_true_iff, bytesMatch_iff,
        ← instr_pos]
      exact Int.natCast_pos
    | starts =>
      show compareValues .eq (sqliteCall other "substr" [row key, .integer 1, .integer pattern.length])
        (.blob pattern) = _
      rw [h]
      show compareValues .eq (.blob (substr value 1 (some (pattern.length : Int).toNat))) (.blob pattern) = _
      rw [Int.toNat_natCast, substr_start, compareValues_blob_eq, Option.some.injEq, Bool.eq_iff_iff,
        decide_eq_true_iff, bytesMatch_iff, List.prefix_iff_eq_take]
      exact eq_comm
    | ends =>
      show compareValues .eq (sqliteCall other "substr" [row key, .integer (-pattern.length)])
        (.blob pattern) = _
      rw [h]
      show compareValues .eq (.blob (substr value (-pattern.length) none)) (.blob pattern) = _
      rw [substr_end value hpos, compareValues_blob_eq, Option.some.injEq, Bool.eq_iff_iff, decide_eq_true_iff,
        bytesMatch_iff, List.suffix_iff_eq_drop]
      exact eq_comm

theorem eval_bytesPattern_postgres (h : row key = .blob value) (kind : OperationKind) (pattern : List UInt8) :
    (bytesPattern key kind pattern .postgres).eval (SqlDialect.postgres.backend lower (postgresCall other))
      rows row = some (bytesMatch value kind pattern) := by
  simp only [bytesPattern]
  by_cases hne : pattern = []
  · subst hne
    cases kind <;> simp [Condition.eval, bytesMatch]
  · rw [if_neg hne]
    have hcall : (Condition.like (.call "ceres_tokenize_bytes" [.column key])
        (.value (.text (withWildcards (likeEscape '^' (tokenizeBytes pattern)) '%' kind))) (some '^')).eval
          (SqlDialect.postgres.backend lower (postgresCall other)) rows row =
        some (like (some '^') id (withWildcards (likeEscape '^' (tokenizeBytes pattern)) '%' kind)
          (tokenizeBytes value)) := by
      show matchValues _ _ (postgresCall other "ceres_tokenize_bytes" [row key]) _ = _
      rw [h]
      rfl
    rw [hcall, like, likeTokens_literal (caret_not_mem_tokenizeBytes pattern), matchTokens_kind,
      Option.some.injEq, Bool.eq_iff_iff, bytesMatch_iff]
    cases kind with
    | contains =>
      rw [textMatches, decide_eq_true_iff]
      exact tokenize_infix hne
    | starts =>
      rw [textMatches, List.isPrefixOf_iff_prefix]
      exact tokenize_prefix
    | ends =>
      rw [textMatches, List.isSuffixOf_iff_suffix]
      exact tokenize_suffix

/-- **Byte patterns agree on every backend**: on a column with any bytes, for any pattern and kind. -/
theorem byte_patterns_agree (h : row key = .blob value) (kind : OperationKind) (pattern : List UInt8) :
    (matchBytesPatterns key kind [pattern] .sqliteText).eval
        (SqlDialect.sqliteText.backend lower (sqliteCall other)) rows row =
      some (bytesMatch value kind pattern) ∧
    (matchBytesPatterns key kind [pattern] .postgres).eval
        (SqlDialect.postgres.backend lower (postgresCall other)) rows row =
      some (bytesMatch value kind pattern) :=
  ⟨eval_bytesPattern_sqlite lower other rows h kind pattern,
    eval_bytesPattern_postgres lower other rows h kind pattern⟩

end Bytes

theorem byte_patterns_agree_sample :
    (matchBytesPatterns "data" .ends [[7, 8, 9]] .sqliteText).eval
        (SqlDialect.sqliteText.backend id (sqliteCall fun _ _ => .null)) [] (fun _ => .blob [8, 9]) =
      some (bytesMatch [8, 9] .ends [7, 8, 9]) :=
  (byte_patterns_agree id (fun _ _ => .null) [] rfl .ends [7, 8, 9]).1

end Ceres.Database
