/-
  File:      Ceres/Database/Selector.lean
  Subject:   ADDRESS SELECTORS (`rust/ceres-database/src/selector.rs`).

  A selector is one or more segments, each a literal address, the engine `~`, or a base with a
  modifier. `AddressSelector` carries the validity of its segments, so the expectations of the source
  (a known modifier, at least one segment) hold by construction.

  * `validSegment`, `validAddress` -- the grammar; `push` -- how a selector is filled;
  * `absoluteSegment` -- resolution against a root, `absoluteSegment_valid`;
  * `segmentMatches`, `AddressSelector.matches` -- the in-memory test;
  * `segmentCondition`, `AddressSelector.condition` -- the compiled test, for either dialect;
  * **`condition_eval`** -- the compiled test is definite and answers what the in-memory test does.
-/
import Ceres.Library.Sql

namespace Ceres.Database

open Ceres.Library
open Ceres.Library.Sql

/-! ## 1. The grammar -/

/-- The modifiers a segment base can carry. -/
inductive Modifier where
  | all
  | children
  | descendants
  deriving DecidableEq, Repr

def Modifier.parse (text : Text) : Option Modifier :=
  if text = "all".toList then some .all
  else if text = "children".toList then some .children
  else if text = "descendants".toList then some .descendants
  else none

/-- The text in front of the first separator and the text behind it. -/
def splitOnce (separator : Char) : Text → Option (Text × Text)
  | [] => none
  | c :: text =>
    if c = separator then some ([], text)
    else (splitOnce separator text).map fun (front, rest) => (c :: front, rest)

/-- One component name, a letter, underscore, or hyphen followed by those plus digits. -/
def validName : Text → Bool
  | [] => false
  | first :: characters =>
    (first.isAlpha || first == '_' || first == '-') &&
      characters.all fun c => c.isAlphanum || c == '_' || c == '-'

/-- One or more dot-separated component names. -/
def validPath (text : Text) : Bool := !text.isEmpty && (text.splitOn '.').all validName

/-- A dotted name path, with or without the `@` anchor. -/
def validOptionallyAbsolutePath (text : Text) : Bool :=
  validPath ((text.dropPrefix? ['@']).getD text)

/-- An absolute address, `~` or `@` with dotted names. -/
def validAddress (text : Text) : Bool :=
  text == ['~'] ||
    match text.dropPrefix? ['@'] with
    | some path => validPath path
    | none => false

def validSegment (segment : Text) : Bool :=
  if segment = "~".toList ∨ segment = "~:all".toList ∨ segment = "~:descendants".toList then true
  else
    match splitOnce ':' segment with
    | some (base, modifier) =>
      (Modifier.parse modifier).isSome &&
        (base == [] || base == ['@'] || validOptionallyAbsolutePath base)
    | none => validOptionallyAbsolutePath segment

/-- A validated selector, its segments held in wire form. -/
structure AddressSelector where
  segments : List Text
  valid : ∀ segment ∈ segments, validSegment segment = true
  nonempty : segments ≠ []

/-- Add one wire value's segments; an invalid one refuses the value, which the error quotes. Repeated
    wire keys fold into one selector. -/
def AddressSelector.push (selector : Option AddressSelector) (value : Text) :
    Except Text AddressSelector :=
  if h : (value.splitOn '|').all validSegment = true then
    .ok {
      segments := (selector.elim [] (·.segments)) ++ value.splitOn '|'
      valid := by
        intro segment hs
        rcases List.mem_append.mp hs with hs | hs
        · cases selector with
          | none => simp at hs
          | some selector => exact selector.valid segment hs
        · exact List.all_eq_true.mp h segment hs
      nonempty := by simp [List.splitOn_ne_nil] }
  else .error value

/-! ## 2. Resolution and the in-memory test -/

/-- The base relative segments resolve against, every component when the root is absent or the
    engine. -/
def base : Option Text → Text
  | none => ['@']
  | some root => if root = ['~'] then ['@'] else root

/-- Resolve one segment against the base, normalizing the bare `all` first. -/
def absoluteSegment (segment base : Text) : Text :=
  let segment := if segment = "all".toList then ":all".toList else segment
  if [':'].isPrefixOf segment then base ++ segment
  else if ['~'].isPrefixOf segment || ['@'].isPrefixOf segment then segment
  else if base = ['@'] then base ++ segment
  else base ++ '.' :: segment

/-- The base and the modifier of a segment. Validation admits known modifiers only
    (`splitModifier_eq_none`), so `none` is a segment without one. -/
def splitModifier (segment : Text) : Option (Text × Modifier) :=
  (splitOnce ':' segment).bind fun (base, modifier) => (Modifier.parse modifier).map (base, ·)

/-- Whether one absolute segment selects an address, mirroring the compiled SQL. -/
def segmentMatches (segment address : Text) : Bool :=
  match splitModifier segment with
  | none => address == segment
  | some (base, modifier) =>
    if base = ['~'] then
      match modifier with
      | .all => true
      | _ => address != ['~']
    else if base = ['@'] then
      match modifier with
      | .all | .descendants => address != ['~']
      | .children => ['@'].isPrefixOf address && !address.contains '.'
    else
      let descendant := (address.dropPrefix? base).bind (·.dropPrefix? ['.'])
      match modifier with
      | .all => address == base || descendant.isSome
      | .descendants => descendant.isSome
      | .children => descendant.any fun rest => !rest.contains '.'

/-- Whether an address is selected, resolved against a root. -/
def AddressSelector.matches (selector : AddressSelector) (address : Text) (root : Option Text) :
    Bool :=
  selector.segments.any fun segment => segmentMatches (absoluteSegment segment (base root)) address

/-! ## 3. The compiled test -/

/-- The statement dialects. -/
inductive SqlDialect where
  | sqliteText
  | postgres
  deriving DecidableEq, Repr

/-- The engine behind a dialect: `LIKE` folds ASCII case on the SQLite family, and has the backslash
    for its escape on PostgreSQL. The functions of the engine stay a parameter. -/
def SqlDialect.backend (dialect : SqlDialect) (lower : Char → Char)
    (call : String → List Value → Value) : Backend :=
  match dialect with
  | sqliteText => { fold := Char.toLower, lower, escape := none, call }
  | postgres => { fold := id, lower, escape := some '\\', call }

/-- The addresses under a base, down to `depth`. -/
def prefixed (key : String) (base : Text) (depth : Text) : SqlDialect → Condition
  | .sqliteText =>
    .glob (.column key) (.value (.text (replaceChar '%' ['*'] (globEscape base ++ '.' :: depth))))
  | .postgres =>
    .like (.column key) (.value (.text (likeEscape '^' base ++ '.' :: depth))) (some '^')

/-- Compile one absolute segment to its condition. -/
def segmentCondition (key : String) (segment : Text) (dialect : SqlDialect) : Condition :=
  let column := Term.column key
  match splitModifier segment with
  | none => .compare .eq column (.value (.text segment))
  | some (base, modifier) =>
    if base = ['~'] then
      match modifier with
      | .all => .constant true
      | _ => .compare .ne column (.value (.text ['~']))
    else if base = ['@'] then
      match modifier with
      | .all | .descendants => .compare .ne column (.value (.text ['~']))
      | .children =>
        .and (.like column (.value (.text "@%".toList)) none)
          (.not (.like column (.value (.text "%.%".toList)) none))
    else
      match modifier with
      | .all => .or (.compare .eq column (.value (.text base))) (prefixed key base "%".toList dialect)
      | .descendants => prefixed key base "%".toList dialect
      | .children =>
        .and (prefixed key base "%".toList dialect)
          (.not (prefixed key base "%.%".toList dialect))

/-- The conditions of the segments, resolved against a root. -/
def AddressSelector.conditions (selector : AddressSelector) (key : String) (root : Option Text)
    (dialect : SqlDialect) : List Condition :=
  selector.segments.map fun segment =>
    segmentCondition key (absoluteSegment segment (base root)) dialect

theorem AddressSelector.anyOf_conditions_isSome (selector : AddressSelector) (key : String)
    (root : Option Text) (dialect : SqlDialect) :
    (anyOf (selector.conditions key root dialect)).isSome = true := by
  unfold AddressSelector.conditions
  cases hs : selector.segments with
  | nil => exact absurd hs selector.nonempty
  | cons segment segments => rfl

/-- Compile the selector against a root, as one condition over the address column. -/
def AddressSelector.condition (selector : AddressSelector) (key : String) (root : Option Text)
    (dialect : SqlDialect) : Condition :=
  (anyOf (selector.conditions key root dialect)).get
    (selector.anyOf_conditions_isSome key root dialect)

/-! ## 4. The shape of a valid segment -/

theorem splitOnce_eq_none {c : Char} : ∀ {text : Text}, splitOnce c text = none ↔ c ∉ text
  | [] => by simp [splitOnce]
  | d :: text => by
      rw [splitOnce]
      by_cases h : d = c
      · simp [h]
      · rw [if_neg h, Option.map_eq_none_iff, splitOnce_eq_none, List.mem_cons]
        simp [Ne.symm h]

theorem splitOnce_append {c : Char} : ∀ {front : Text} (rest : Text), c ∉ front →
    splitOnce c (front ++ c :: rest) = some (front, rest)
  | [], rest, _ => by simp [splitOnce]
  | d :: front, rest, h => by
      rw [List.mem_cons, not_or] at h
      rw [List.cons_append, splitOnce, if_neg (Ne.symm h.1), splitOnce_append rest h.2]
      rfl

theorem splitOnce_eq_some {c : Char} : ∀ {text front rest : Text},
    splitOnce c text = some (front, rest) → text = front ++ c :: rest ∧ c ∉ front
  | [], _, _, h => by simp [splitOnce] at h
  | d :: text, front, rest, h => by
      rw [splitOnce] at h
      by_cases hd : d = c
      · rw [if_pos hd, Option.some.injEq, Prod.mk.injEq] at h
        obtain ⟨rfl, rfl⟩ := h
        exact ⟨by rw [hd, List.nil_append], List.not_mem_nil⟩
      · rw [if_neg hd, Option.map_eq_some_iff] at h
        obtain ⟨⟨front', rest'⟩, h, hf⟩ := h
        rw [Prod.mk.injEq] at hf
        obtain ⟨rfl, rfl⟩ := hf
        obtain ⟨rfl, hn⟩ := splitOnce_eq_some h
        exact ⟨rfl, by simp [Ne.symm hd, hn]⟩

def Modifier.text : Modifier → Text
  | all => "all".toList
  | children => "children".toList
  | descendants => "descendants".toList

variable {text : Text}

theorem Modifier.parse_eq_some {m : Modifier} : Modifier.parse text = some m ↔ text = m.text := by
  unfold Modifier.parse
  constructor
  · intro h
    split at h
    · rename_i ht
      cases h
      exact ht
    · split at h
      · rename_i ht
        cases h
        exact ht
      · split at h
        · rename_i ht
          cases h
          exact ht
        · cases h
  · rintro rfl
    cases m <;> decide

/-- The characters of a component name. -/
def nameCharacter (c : Char) : Bool := c.isAlphanum || c == '_' || c == '-'

theorem validName_characters (h : validName text = true) : text ≠ [] ∧ ∀ c ∈ text, nameCharacter c = true := by
  cases text with
  | nil => simp [validName] at h
  | cons first characters =>
    rw [validName, Bool.and_eq_true] at h
    refine ⟨by simp, fun c hc => ?_⟩
    rcases List.mem_cons.mp hc with rfl | hc
    · unfold nameCharacter Char.isAlphanum
      revert h
      cases c.isAlpha <;> simp
      tauto
    · exact List.all_eq_true.mp h.2 c hc

theorem dot_not_mem_of_validName (h : validName text = true) : '.' ∉ text := by
  intro hc
  have := (validName_characters h).2 _ hc
  revert this
  decide

/-- **A path is a list of names joined with dots.** -/
theorem validPath_iff : validPath text = true ↔
      ∃ names : List Text, names ≠ [] ∧ (∀ n ∈ names, validName n = true) ∧ text = ['.'].intercalate names := by
  unfold validPath
  rw [Bool.and_eq_true, List.all_eq_true]
  constructor
  · rintro ⟨-, h⟩
    exact ⟨text.splitOn '.', List.splitOn_ne_nil _ _, h, (List.intercalate_splitOn '.').symm⟩
  · rintro ⟨names, hne, hn, rfl⟩
    rw [List.splitOn_intercalate '.' (fun n hn' => dot_not_mem_of_validName (hn n hn')) hne]
    refine ⟨?_, hn⟩
    obtain ⟨n, names, rfl⟩ := List.exists_cons_of_ne_nil hne
    have hn₀ : n ≠ [] := (validName_characters (hn n (by simp))).1
    cases names <;> simp [List.intercalate, hn₀]

theorem validPath_eq_all (text : Text) : validPath text = (text.splitOn '.').all validName := by
  cases text with
  | nil => rfl
  | cons c text => rfl

theorem validPath_append (p q : Text) : validPath (p ++ '.' :: q) = (validPath p && validPath q) := by
  simp only [validPath_eq_all, List.splitOn_append_cons_self, List.all_append]

theorem mem_intercalate {separator c : Char} : ∀ {names : List Text},
    c ∈ [separator].intercalate names → c = separator ∨ ∃ n ∈ names, c ∈ n
  | [], h => by simp at h
  | [n], h => by
      rw [List.intercalate_singleton] at h
      exact .inr ⟨n, by simp, h⟩
  | n :: n' :: names, h => by
      rw [List.intercalate_cons_cons, List.mem_append, List.mem_append] at h
      rcases h with (h | h) | h
      · exact .inr ⟨n, by simp, h⟩
      · exact .inl (by simpa using h)
      · rcases mem_intercalate h with h | ⟨m, hm, hc⟩
        · exact .inl h
        · exact .inr ⟨m, List.mem_cons_of_mem _ hm, hc⟩

theorem validPath_characters (h : validPath text = true) :
    text ≠ [] ∧ ∀ c ∈ text, c = '.' ∨ nameCharacter c = true := by
  refine ⟨fun h₀ => by simp [validPath, h₀] at h, fun c hc => ?_⟩
  obtain ⟨names, -, hn, rfl⟩ := validPath_iff.mp h
  rcases mem_intercalate hc with rfl | ⟨n, hmem, hc⟩
  · exact .inl rfl
  · exact .inr ((validName_characters (hn n hmem)).2 c hc)

theorem not_mem_of_validPath {c : Char} (h : validPath text = true)
    (hc : (c == '.' || nameCharacter c) = false) : c ∉ text := by
  intro hmem
  rcases (validPath_characters h).2 c hmem with rfl | h
  · simp at hc
  · simp [h] at hc

/-- What a valid absolute segment can be. -/
inductive Absolute : Text → Prop where
  | engine : Absolute ['~']
  | component (path : Text) : validPath path = true → Absolute ('@' :: path)
  | engineAll : Absolute "~:all".toList
  | engineDescendants : Absolute "~:descendants".toList
  | everything (m : Modifier) : Absolute ('@' :: ':' :: m.text)
  | under (path : Text) (m : Modifier) : validPath path = true →
      Absolute ('@' :: path ++ ':' :: m.text)

theorem validOptionallyAbsolutePath_cases (h : validOptionallyAbsolutePath text = true) :
    validPath text = true ∨ ∃ path, text = '@' :: path ∧ validPath path = true := by
  unfold validOptionallyAbsolutePath at h
  cases hp : text.dropPrefix? ['@'] with
  | none =>
    rw [hp] at h
    exact .inl h
  | some path =>
    rw [hp] at h
    obtain ⟨_, rfl, heq⟩ := List.dropPrefix?_eq_some_iff.mp hp
    rw [beq_iff_eq] at heq
    subst heq
    exact .inr ⟨path, rfl, h⟩

/-- **What a valid segment can be**: absolute, a bare modifier, or a relative path with or
    without a modifier. -/
theorem validSegment_cases {segment : Text} (h : validSegment segment = true) :
    Absolute segment ∨ (∃ m : Modifier, segment = ':' :: m.text) ∨ validPath segment = true ∨
      ∃ path, ∃ m : Modifier, segment = path ++ ':' :: m.text ∧ validPath path = true := by
  unfold validSegment at h
  split at h
  · rename_i hs
    rcases hs with rfl | rfl | rfl
    · exact .inl .engine
    · exact .inl .engineAll
    · exact .inl .engineDescendants
  · split at h
    · rename_i base modifier hsplit
      obtain ⟨rfl, -⟩ := splitOnce_eq_some hsplit
      rw [Bool.and_eq_true, Option.isSome_iff_exists] at h
      obtain ⟨⟨m, hm⟩, h⟩ := h
      rw [Modifier.parse_eq_some] at hm
      subst hm
      rw [Bool.or_eq_true, Bool.or_eq_true, beq_iff_eq, beq_iff_eq] at h
      rcases h with (rfl | rfl) | h
      · exact .inr (.inl ⟨m, rfl⟩)
      · exact .inl (.everything m)
      · rcases validOptionallyAbsolutePath_cases h with hp | ⟨path, rfl, hp⟩
        · exact .inr (.inr (.inr ⟨base, m, rfl, hp⟩))
        · exact .inl (.under path m hp)
    · rcases validOptionallyAbsolutePath_cases h with hp | ⟨path, rfl, hp⟩
      · exact .inr (.inr (.inl hp))
      · exact .inl (.component path hp)

theorem validAddress_cases (h : validAddress text = true) :
    text = ['~'] ∨ ∃ path, text = '@' :: path ∧ validPath path = true := by
  unfold validAddress at h
  rw [Bool.or_eq_true, beq_iff_eq] at h
  rcases h with h | h
  · exact .inl h
  · split at h
    · rename_i path hp
      obtain ⟨_, rfl, heq⟩ := List.dropPrefix?_eq_some_iff.mp hp
      rw [beq_iff_eq] at heq
      subst heq
      exact .inr ⟨path, rfl, h⟩
    · cases h

/-- What relative segments resolve against: every component, or a component. -/
theorem base_cases {root : Option Text} (h : ∀ r ∈ root, validAddress r = true) :
    base root = ['@'] ∨ ∃ path, base root = '@' :: path ∧ validPath path = true := by
  cases root with
  | none => exact .inl rfl
  | some root =>
    rcases validAddress_cases (h root rfl) with rfl | ⟨path, rfl, hp⟩
    · exact .inl rfl
    · refine .inr ⟨path, ?_, hp⟩
      rw [base, if_neg]
      simp

/-- A text that opens with a path opens with none of the marks of an absolute segment. -/
theorem isPrefixOf_path_append {path : Text} (h : validPath path = true) (rest : Text) {c : Char}
    (hc : (c == '.' || nameCharacter c) = false) : [c].isPrefixOf (path ++ rest) = false := by
  obtain ⟨first, path', rfl⟩ := List.exists_cons_of_ne_nil (validPath_characters h).1
  have hne : c ≠ first := by
    rintro rfl
    exact not_mem_of_validPath h hc (by simp)
  simp [List.isPrefixOf, hne]

/-- A relative path, with whatever follows it, joins under the base. -/
theorem absoluteSegment_path {path : Text} (h : validPath path = true) (rest base : Text)
    (hall : path ++ rest ≠ "all".toList) : absoluteSegment (path ++ rest) base =
      if base = ['@'] then base ++ (path ++ rest) else base ++ '.' :: (path ++ rest) := by
  unfold absoluteSegment
  simp only [if_neg hall, isPrefixOf_path_append h rest (c := ':') (by decide),
    isPrefixOf_path_append h rest (c := '~') (by decide),
    isPrefixOf_path_append h rest (c := '@') (by decide), Bool.false_eq_true, if_false,
    Bool.or_self]

/-- **A valid segment resolves to a valid absolute one.** -/
theorem absoluteSegment_absolute {segment : Text} {root : Option Text}
    (hs : validSegment segment = true) (hr : ∀ r ∈ root, validAddress r = true) :
    Absolute (absoluteSegment segment (base root)) := by
  have hmod : ∀ m : Modifier, Absolute (base root ++ ':' :: m.text) := by
    intro m
    rcases base_cases hr with hb | ⟨path, hb, hp⟩
    · rw [hb]
      exact .everything m
    · rw [hb]
      exact .under path m hp
  by_cases hall : segment = "all".toList
  · subst hall
    exact hmod .all
  have hjoin : ∀ path rest, segment = path ++ rest → validPath path = true →
      ∃ path', validPath path' = true ∧
        absoluteSegment segment (base root) = '@' :: path' ++ rest := by
    intro path rest hseg hp
    subst hseg
    rw [absoluteSegment_path hp rest _ hall]
    rcases base_cases hr with hb | ⟨stem, hb, hstem⟩
    · exact ⟨path, hp, by simp [hb]⟩
    · refine ⟨stem ++ '.' :: path, by rw [validPath_append, hstem, hp, Bool.and_self], ?_⟩
      rw [if_neg]
      · simp [hb]
      · rw [hb]
        simpa using (validPath_characters hstem).1
  rcases validSegment_cases hs with h | ⟨m, rfl⟩ | h | ⟨path, m, hseg, hp⟩
  · have habs : absoluteSegment segment (base root) = segment := by
      cases h <;> simp [absoluteSegment]
    rw [habs]
    exact h
  · have hm : absoluteSegment (':' :: m.text) (base root) = base root ++ ':' :: m.text := by
      cases m <;> rfl
    rw [hm]
    exact hmod m
  · obtain ⟨path', hp', habs⟩ := hjoin segment [] (by simp) h
    rw [habs, List.append_nil]
    exact .component path' hp'
  · obtain ⟨path', hp', habs⟩ := hjoin path _ hseg hp
    rw [habs]
    exact .under path' m hp'

theorem splitModifier_append (front : Text) (h : ':' ∉ front) (m : Modifier) :
    splitModifier (front ++ ':' :: m.text) = some (front, m) := by
  rw [splitModifier, splitOnce_append _ h, Option.bind_some]
  show (Modifier.parse m.text).map (front, ·) = _
  rw [Modifier.parse_eq_some.mpr rfl]
  rfl

theorem splitModifier_eq_none {segment : Text} (h : Absolute segment) :
    splitModifier segment = none ↔ ':' ∉ segment := by
  have hcolon : ∀ {path : Text}, validPath path = true → ':' ∉ path :=
    fun hp => not_mem_of_validPath hp (by decide)
  cases h with
  | engine => decide
  | component path hp =>
    rw [splitModifier, splitOnce_eq_none.mpr (by simp [hcolon hp])]
    simp [hcolon hp]
  | engineAll => decide
  | engineDescendants => decide
  | everything m => cases m <;> decide
  | under path m hp =>
    rw [splitModifier_append ('@' :: path) (by simp [hcolon hp]) m]
    simp

theorem Absolute.validSegment {segment : Text} (h : Absolute segment) : validSegment segment = true := by
  have hcolon : ∀ {path : Text}, validPath path = true → ':' ∉ path :=
    fun hp => not_mem_of_validPath hp (by decide)
  have hanchor : ∀ path : Text, validOptionallyAbsolutePath ('@' :: path) = validPath path := by
    intro path
    rw [validOptionallyAbsolutePath]
    exact congrArg (fun o => validPath (Option.getD o _))
      (@List.dropPrefix?_append_of_beq _ _ ['@'] ['@'] path (by simp))
  cases h with
  | engine => decide
  | component path hp =>
    unfold Ceres.Database.validSegment
    rw [if_neg (by simp), splitOnce_eq_none.mpr (by simp [hcolon hp])]
    exact (hanchor path).trans hp
  | engineAll => decide
  | engineDescendants => decide
  | everything m => cases m <;> decide
  | under path m hp =>
    unfold Ceres.Database.validSegment
    rw [if_neg (by simp), splitOnce_append _ (by simp [hcolon hp])]
    show ((Modifier.parse m.text).isSome && (_ || _ || _)) = true
    rw [Modifier.parse_eq_some.mpr rfl, hanchor path, hp]
    simp

/-! ## 5. The compiled test answers what the in-memory test does -/

/-- What follows the base and its dot. -/
def depthTokens (deeper : Bool) : List Token :=
  if deeper then [.star, .lit '.', .star] else [.star]

def depthText (deeper : Bool) : Text := if deeper then "%.%".toList else "%".toList

section Evaluation

variable (lower : Char → Char) (call : String → List Value → Value) (rows : List Row)
variable {row : Row} {key : String} {address : Text}

theorem eval_glob (h : row key = .text address) (pattern : Text) (backend : Backend) :
    (Condition.glob (.column key) (.value (.text pattern))).eval backend rows row =
      some (glob pattern address) := by
  simp [Condition.eval, Term.eval, h, matchValues, asText]

theorem eval_like (h : row key = .text address) (pattern : Text) (escape : Option Char) (backend : Backend) :
    (Condition.like (.column key) (.value (.text pattern)) escape).eval backend rows row =
      some (like (escape <|> backend.escape) backend.fold pattern address) := by
  simp [Condition.eval, Term.eval, h, matchValues, asText]

/-- Replacing the `%` of a pattern leaves a text without one alone. -/
theorem replaceChar_of_not_mem {c : Char} {by_ : Text} : ∀ {text : Text}, c ∉ text →
    replaceChar c by_ text = text
  | [], _ => rfl
  | d :: text, h => by
      rw [List.mem_cons, not_or] at h
      rw [replaceChar, List.flatMap_cons, if_neg (Ne.symm h.1)]
      exact congrArg (d :: ·) (replaceChar_of_not_mem h.2)

theorem replaceChar_append (c : Char) (by_ s t : Text) :
    replaceChar c by_ (s ++ t) = replaceChar c by_ s ++ replaceChar c by_ t :=
  List.flatMap_append

theorem mem_globEscape {c : Char} (h₁ : c ≠ '[') (h₂ : c ≠ ']') : ∀ {text : Text},
    c ∈ globEscape text → c ∈ text
  | [], h => h
  | d :: text, h => by
      rw [globEscape_cons, List.mem_append] at h
      rcases h with h | h
      · split at h <;> simp_all
      · exact List.mem_cons_of_mem _ (mem_globEscape h₁ h₂ h)

/-- **Both dialects look for the base, a dot, and the depth.** -/
theorem eval_prefixed (h : row key = .text address) {base : Text} (h₁ : '%' ∉ base)
    (h₂ : '^' ∉ base) (deeper : Bool) (dialect : SqlDialect) :
    (prefixed key base (depthText deeper) dialect).eval (dialect.backend lower call) rows row =
      some (matchTokens (base.map Token.lit ++ (.lit '.' :: depthTokens deeper)) address) := by
  cases dialect with
  | sqliteText =>
    have hg : replaceChar '%' ['*'] (globEscape base) = globEscape base :=
      replaceChar_of_not_mem fun hm => h₁ (mem_globEscape (by decide) (by decide) hm)
    have ht : globTokens (replaceChar '%' ['*'] ('.' :: depthText deeper)) = .lit '.' :: depthTokens deeper := by
      cases deeper <;> simp [depthText, depthTokens, replaceChar, globTokens]
    rw [prefixed, eval_glob rows h, glob, replaceChar_append, hg, globTokens_escape, ht]
  | postgres =>
    have ht : likeTokens (some '^') id ('.' :: depthText deeper) = .lit '.' :: depthTokens deeper := by
      cases deeper <;> simp [depthText, depthTokens, likeTokens, Token.lit]
    rw [prefixed, eval_like rows h]
    show some (matchTokens (likeTokens (some '^') id _) address) = _
    rw [likeTokens_escape (by decide) _ _ h₂, ht]

theorem descendant_eq_some {base rest : Text} :
    (address.dropPrefix? base).bind (·.dropPrefix? ['.']) = some rest ↔ address = base ++ '.' :: rest := by
  constructor
  · intro h
    obtain ⟨s, hs, hd⟩ := Option.bind_eq_some_iff.mp h
    obtain ⟨_, rfl, he⟩ := List.dropPrefix?_eq_some_iff.mp hs
    obtain ⟨_, rfl, he'⟩ := List.dropPrefix?_eq_some_iff.mp hd
    rw [beq_iff_eq] at he he'
    rw [he, he']
    rfl
  · rintro rfl
    rw [List.dropPrefix?_append_of_beq _ (by simp), Option.bind_some]
    exact @List.dropPrefix?_append_of_beq _ _ ['.'] ['.'] rest (by simp)

theorem matchTokens_depth (base : Text) (deeper : Bool) :
    matchTokens (base.map Token.lit ++ (.lit '.' :: depthTokens deeper)) address =
      ((address.dropPrefix? base).bind (·.dropPrefix? ['.'])).any fun rest => !deeper || rest.contains '.' := by
  have hsplit : base.map Token.lit ++ (.lit '.' :: depthTokens deeper) =
      (base ++ ['.']).map Token.lit ++ depthTokens deeper := by simp
  rw [Bool.eq_iff_iff, hsplit, matchTokens_append, Option.any_eq_true]
  constructor
  · rintro ⟨a, b, rfl, ha, hb⟩
    rw [matchTokens_lits] at ha
    subst ha
    refine ⟨b, descendant_eq_some.mpr (by simp), ?_⟩
    cases deeper with
    | false => rfl
    | true =>
      obtain ⟨front, rest, rfl⟩ := (matchTokens_within ['.'] b).mp hb
      simp
  · rintro ⟨rest, hrest, hdot⟩
    rw [descendant_eq_some] at hrest
    subst hrest
    refine ⟨base ++ ['.'], rest, by simp, (matchTokens_lits _ _).mpr rfl, ?_⟩
    cases deeper with
    | false => exact matchTokens_star rest
    | true =>
      have hmem : '.' ∈ rest := by simpa using hdot
      obtain ⟨front, back, rfl⟩ := List.append_of_mem hmem
      exact (matchTokens_within ['.'] _).mpr ⟨front, back, by simp⟩

/-- Folding ASCII case moves no character in front of the letters. -/
theorem toLower_eq_iff {c d : Char} (hd : d.toNat < 65) : c.toLower = d ↔ c = d := by
  unfold Char.toLower
  split
  · rename_i h
    have hA : 65 ≤ c.val.toNat := UInt32.le_iff_toNat_le.mp h.1
    have hZ : c.val.toNat ≤ 90 := UInt32.le_iff_toNat_le.mp h.2
    constructor
    · intro he
      have hv : (c.val + 32).toNat = d.toNat := congrArg (fun e : Char => e.val.toNat) he
      rw [UInt32.toNat_add] at hv
      have h32 : (32 : UInt32).toNat = 32 := rfl
      omega
    · rintro rfl
      exact absurd (show c.val.toNat < 65 from hd) (by omega)
  · rfl

/-- The letterless patterns read the same on both dialects. -/
theorem eval_like_plain (h : row key = .text address) (dialect : SqlDialect) :
    (Condition.like (.column key) (.value (.text "@%".toList)) none).eval
        (dialect.backend lower call) rows row = some (['@'].isPrefixOf address) ∧
      (Condition.like (.column key) (.value (.text "%.%".toList)) none).eval
        (dialect.backend lower call) rows row = some (address.contains '.') := by
  have hlit : ∀ c : Char, c.toNat < 65 →
      Token.one (fun d => (dialect.backend lower call).fold d ==
        (dialect.backend lower call).fold c) = .lit c := by
    intro c hc
    refine congrArg Token.one (funext fun d => ?_)
    cases dialect with
    | sqliteText =>
      have hcc : c.toLower = c := (toLower_eq_iff hc).mpr rfl
      rw [Bool.eq_iff_iff, beq_iff_eq, beq_iff_eq]
      show d.toLower = c.toLower ↔ _
      rw [hcc, toLower_eq_iff hc]
    | postgres => rfl
  have hesc : ∀ c : Char, c ≠ '\\' → ((none : Option Char) <|> (dialect.backend lower call).escape) ≠
      some c := by
    intro c hc
    cases dialect with
    | sqliteText => exact fun h => Option.noConfusion rfl (heq_of_eq h)
    | postgres => exact fun h => hc (Option.some.inj h).symm
  rw [eval_like rows h, eval_like rows h, like, like]
  show some (matchTokens (likeTokens _ _ ['@', '%']) address) = _ ∧
    some (matchTokens (likeTokens _ _ ['%', '.', '%']) address) = _
  rw [likeTokens_plain (hesc '@' (by decide)) (by decide) (by decide), hlit '@' (by decide),
    likeTokens_percent (hesc '%' (by decide)), likeTokens_percent (hesc '%' (by decide)),
    likeTokens_plain (hesc '.' (by decide)) (by decide) (by decide), hlit '.' (by decide),
    likeTokens_percent (hesc '%' (by decide)), likeTokens]
  constructor
  · rw [Option.some.injEq, Bool.eq_iff_iff, List.isPrefixOf_iff_prefix]
    refine (matchTokens_opens ['@'] address).trans ?_
    constructor
    · rintro ⟨rest, hrest⟩
      exact ⟨rest, hrest.symm⟩
    · rintro ⟨rest, hrest⟩
      exact ⟨rest, hrest.symm⟩
  · rw [Option.some.injEq, Bool.eq_iff_iff, List.contains_iff_mem]
    refine (matchTokens_within ['.'] address).trans ?_
    constructor
    · rintro ⟨front, rest, rfl⟩
      simp
    · intro hmem
      obtain ⟨front, back, rfl⟩ := List.append_of_mem hmem
      exact ⟨front, back, by simp⟩

/-- **One segment: the condition is definite and says what the in-memory test says.** -/
theorem segmentCondition_eval (h : row key = .text address) {segment : Text}
    (hs : Absolute segment) (dialect : SqlDialect) :
    (segmentCondition key segment dialect).eval (dialect.backend lower call) rows row =
      some (segmentMatches segment address) := by
  have heq : ∀ text : Text, (Condition.compare .eq (.column key) (.value (.text text))).eval
      (dialect.backend lower call) rows row = some (address == text) := by
    intro text
    simp [Condition.eval, Term.eval, h, compareValues_text_eq, Bool.beq_eq_decide_eq]
  have hne : ∀ text : Text, (Condition.compare .ne (.column key) (.value (.text text))).eval
      (dialect.backend lower call) rows row = some (address != text) := by
    intro text
    simp [Condition.eval, Term.eval, h, compareValues_text_ne, bne, Bool.beq_eq_decide_eq]
  have hliteral : ':' ∉ segment → (segmentCondition key segment dialect).eval
      (dialect.backend lower call) rows row = some (segmentMatches segment address) := by
    intro hc
    rw [segmentCondition, segmentMatches, (splitModifier_eq_none hs).mpr hc]
    exact heq segment
  cases hs with
  | engine => exact hliteral (by decide)
  | component path hp => exact hliteral (by simp [not_mem_of_validPath hp (c := ':') (by decide)])
  | engineAll => rfl
  | engineDescendants => exact hne ['~']
  | everything m =>
    have hsplit : splitModifier ('@' :: ':' :: m.text) = some (['@'], m) := splitModifier_append ['@'] (by decide) m
    rw [segmentCondition, segmentMatches, hsplit]
    cases m with
    | all => exact hne ['~']
    | descendants => exact hne ['~']
    | children =>
      obtain ⟨h₁, h₂⟩ := eval_like_plain lower call rows h dialect
      show Truth.and (Condition.eval _ _ _ _) (Truth.not (Condition.eval _ _ _ _)) = _
      rw [h₁, h₂]
      cases ['@'].isPrefixOf address <;> rfl
  | under path m hp =>
    have hcolon : ':' ∉ '@' :: path := by simp [not_mem_of_validPath hp (c := ':') (by decide)]
    have hpercent : '%' ∉ '@' :: path := by simp [not_mem_of_validPath hp (c := '%') (by decide)]
    have hcaret : '^' ∉ '@' :: path := by simp [not_mem_of_validPath hp (c := '^') (by decide)]
    have ht : ('@' :: path) ≠ ['~'] := by simp
    have hb : ('@' :: path) ≠ ['@'] := by simpa using (validPath_characters hp).1
    have hdeep := fun deeper => eval_prefixed lower call rows h hpercent hcaret deeper dialect
    simp only [matchTokens_depth] at hdeep
    rw [segmentCondition, segmentMatches, splitModifier_append _ hcolon m]
    simp only [if_neg ht, if_neg hb]
    cases m with
    | all =>
      show Truth.or (Condition.eval _ _ _ _) (Condition.eval _ _ _ (prefixed _ _ (depthText false) _)) = _
      rw [heq, hdeep false]
      cases (address == '@' :: path) <;>
        cases (address.dropPrefix? ('@' :: path)).bind (·.dropPrefix? ['.']) <;> rfl
    | descendants =>
      show Condition.eval _ _ _ (prefixed _ _ (depthText false) _) = _
      rw [hdeep false]
      cases (address.dropPrefix? ('@' :: path)).bind (·.dropPrefix? ['.']) <;> rfl
    | children =>
      show Truth.and (Condition.eval _ _ _ (prefixed _ _ (depthText false) _))
        (Truth.not (Condition.eval _ _ _ (prefixed _ _ (depthText true) _))) = _
      rw [hdeep false, hdeep true]
      cases (address.dropPrefix? ('@' :: path)).bind (·.dropPrefix? ['.']) with
      | none => rfl
      | some rest => rfl

/-- **The compiled selector is definite on a row with an address and says what the in-memory test
    says**, whatever the address, on both dialects. -/
theorem AddressSelector.condition_eval (selector : AddressSelector) {root : Option Text}
    (hr : ∀ r ∈ root, validAddress r = true) (h : row key = .text address) (dialect : SqlDialect) :
    (selector.condition key root dialect).eval (dialect.backend lower call) rows row =
      some (selector.matches address root) := by
  refine anyOf_definite (Option.some_get _).symm fun segment hs => ?_
  exact segmentCondition_eval lower call rows h
    (absoluteSegment_absolute (selector.valid segment hs) hr) dialect

end Evaluation

end Ceres.Database
