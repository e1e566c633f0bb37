/-
  File:      Ceres/Address.lean
  Subject:   ADDRESS SELECTORS IN PYTHON (`ceres/address.py`), and that the three tests agree.

  The Python selector is a text that a regular expression admits; it is split, resolved, joined,
  admitted again and split again before a segment is tested. `none` is a `ValueError`.

  * `SEGMENT`, `REGEX`, `ADDRESS` -- the expressions of the source, as Mathlib's `RegularExpression`;
  * `AddressSelector.asAbsolute`, `AddressSelector.matches` -- the methods;
  * **`selectors_agree`** -- on valid selectors, roots and addresses the Python method, the Rust method
    and the compiled condition of either dialect give one answer.
-/
import Mathlib.Computability.RegularExpressions
import Ceres.Database.Selector

namespace Ceres.Address

open Ceres.Library
open Ceres.Library.Sql
open Ceres.Database
open RegularExpression

/-! ## 1. The regular expressions -/

/-- The characters from one to another. -/
def characters (low high : Char) : List Char :=
  (List.range' low.toNat (high.toNat + 1 - low.toNat)).map Char.ofNat

/-- One character of a class. -/
def oneOf : List Char → RegularExpression Char
  | [] => 0
  | c :: cs => char c + oneOf cs

/-- A text that stands for itself. -/
def literal : Text → RegularExpression Char
  | [] => 1
  | c :: text => char c * literal text

def optional (r : RegularExpression Char) : RegularExpression Char := 1 + r

def letters : List Char := characters 'a' 'z' ++ characters 'A' 'Z'

/-- A name, `[a-zA-Z_\-][a-zA-Z0-9_\-]*` -/
def NAME : RegularExpression Char :=
  oneOf (letters ++ ['_', '-']) * star (oneOf (letters ++ characters '0' '9' ++ ['_', '-']))

/-- A modifier, `:(all|children|descendants)` -/
def MODIFIER : RegularExpression Char :=
  char ':' * (literal "all".toList + literal "children".toList + literal "descendants".toList)

/-- A path, `@?NAME(\.NAME)*` -/
def PATH : RegularExpression Char := optional (char '@') * (NAME * star (char '.' * NAME))

/-- A segment, `\~(:(all|descendants))?|PATH(MODIFIER)?|@MODIFIER|MODIFIER` -/
def SEGMENT : RegularExpression Char :=
  char '~' * optional (char ':' * (literal "all".toList + literal "descendants".toList)) +
    PATH * optional MODIFIER + char '@' * MODIFIER + MODIFIER

/-- A selector, `^(?:SEGMENT)(\|(?:SEGMENT))*$`; the `$` also stands in front of a final newline. -/
def REGEX : RegularExpression Char :=
  SEGMENT * star (char '|' * SEGMENT) * optional (char '\n')

/-- An address, `^(?:~|@NAME(\.NAME)*)$` -/
def ADDRESS : RegularExpression Char :=
  (char '~' + char '@' * (NAME * star (char '.' * NAME))) * optional (char '\n')

/-! ## 2. The selector -/

/-- A constructor that validates its text. -/
def validated (regex : RegularExpression Char) (text : Text) : Option Text :=
  if text ∈ regex.matches' then some text else none

namespace AddressSelector

/-- The method `_get_normalized_segments`. -/
def normalizedSegments (text : Text) : Option (List Text) :=
  (text.splitOn '|').mapM fun segment =>
    validated REGEX (if segment = "all".toList then ":all".toList else segment)

/-- The method `as_absolute`. -/
def asAbsolute (text : Text) (root : Option Text) : Option Text := do
  let base := match root with
    | none => ['@']
    | some root => if root = ['~'] then ['@'] else root
  let segments ← normalizedSegments text
  validated REGEX (['|'].intercalate (segments.map fun segment =>
    if [':'].isPrefixOf segment then base ++ segment
    else if ['~'].isPrefixOf segment || ['@'].isPrefixOf segment then segment
    else if base = ['@'] then base ++ segment
    else base ++ ['.'] ++ segment))

/-- One turn of the loop of `matches`: whether it returns `True`. -/
def segmentSelects (address segment : Text) : Option Bool :=
  if ':' ∉ segment then some (address == segment)
  else
    match segment.splitOn ':' with
    | [base, modifier] => some <|
      if base = ['~'] then
        if modifier = "all".toList then true
        else if modifier = "descendants".toList then address != ['~']
        else false
      else if base = ['@'] then
        if modifier = "all".toList ∨ modifier = "descendants".toList then address != ['~']
        else if modifier = "children".toList then
          ['@'].isPrefixOf address && !address.contains '.'
        else false
      else
        if modifier = "all".toList then address == base || (base ++ ['.']).isPrefixOf address
        else if modifier = "descendants".toList then (base ++ ['.']).isPrefixOf address
        else if modifier = "children".toList then
          (base ++ ['.']).isPrefixOf address && (address.drop (base.length + 2)).count '.' == 0
        else false
    | _ => none

/-- The loop of `matches`. -/
def anySelects (address : Text) : List Text → Option Bool
  | [] => some false
  | segment :: segments => do
    if ← segmentSelects address segment then return true
    anySelects address segments

end AddressSelector

/-- The method `matches`. -/
def AddressSelector.matches (text address : Text) (root : Option Text) : Option Bool := do
  let address ← validated ADDRESS address
  let text ← AddressSelector.asAbsolute text root
  let segments ← AddressSelector.normalizedSegments text
  AddressSelector.anySelects address segments

/-! ## 3. What the expressions admit -/

theorem mem_characters {low high c : Char} (h₁ : low.toNat ≤ c.toNat) (h₂ : c.toNat ≤ high.toNat) :
    c ∈ characters low high := by
  refine List.mem_map.mpr ⟨c.toNat, ?_, Char.ofNat_toNat c⟩
  rw [List.mem_range'_1]
  omega

section Membership

variable {r s : RegularExpression Char} {a b : Text}

theorem mem_add_left (h : a ∈ r.matches') : a ∈ (r + s).matches' := .inl h

theorem mem_add_right (h : a ∈ s.matches') : a ∈ (r + s).matches' := .inr h

theorem append_mem_mul (ha : a ∈ r.matches') (hb : b ∈ s.matches') : a ++ b ∈ (r * s).matches' :=
  Language.append_mem_mul ha hb

theorem cons_mem_mul (c : Char) (h : a ∈ r.matches') : c :: a ∈ (char c * r).matches' :=
  Language.append_mem_mul (Set.mem_singleton [c]) h

theorem flatten_mem_star {items : List Text} (h : ∀ item ∈ items, item ∈ r.matches') :
    items.flatten ∈ (star r).matches' :=
  Language.join_mem_kstar h

theorem nil_mem_optional : [] ∈ (optional r).matches' := .inl rfl

theorem mem_optional (h : a ∈ r.matches') : a ∈ (optional r).matches' := .inr h

theorem singleton_mem_char (c : Char) : [c] ∈ (char c).matches' := Set.mem_singleton [c]

end Membership

theorem mem_oneOf {c : Char} : ∀ {cs : List Char}, c ∈ cs → [c] ∈ (oneOf cs).matches'
  | d :: cs, h => by
      rw [oneOf]
      rcases List.mem_cons.mp h with rfl | h
      · exact mem_add_left (singleton_mem_char c)
      · exact mem_add_right (mem_oneOf h)

theorem mem_literal : ∀ text : Text, text ∈ (literal text).matches'
  | [] => rfl
  | c :: text => cons_mem_mul c (mem_literal text)

theorem intercalate_cons (separator : Char) (item : Text) : ∀ items : List Text,
    [separator].intercalate (item :: items) = item ++ (items.map (separator :: ·)).flatten
  | [] => by simp
  | next :: items => by
      rw [List.intercalate_cons_cons, intercalate_cons separator next items]
      simp

/-- **Items joined with a separator.** -/
theorem mem_separated {r : RegularExpression Char} (separator : Char) {items : List Text}
    (hne : items ≠ []) (h : ∀ item ∈ items, item ∈ r.matches') :
    [separator].intercalate items ∈ (r * star (char separator * r)).matches' := by
  obtain ⟨item, items, rfl⟩ := List.exists_cons_of_ne_nil hne
  rw [intercalate_cons]
  refine append_mem_mul (h item (by simp)) (flatten_mem_star fun y hy => ?_)
  obtain ⟨next, hmem, rfl⟩ := List.mem_map.mp hy
  exact cons_mem_mul separator (h next (List.mem_cons_of_mem _ hmem))

theorem mem_letters {c : Char} (h : c.isAlpha = true) : c ∈ letters := by
  unfold letters Char.isAlpha Char.isUpper Char.isLower at *
  simp only [Bool.or_eq_true, Bool.and_eq_true, decide_eq_true_eq] at h
  rw [List.mem_append]
  rcases h with h | h
  · exact .inr (mem_characters (UInt32.le_iff_toNat_le.mp h.1) (UInt32.le_iff_toNat_le.mp h.2))
  · exact .inl (mem_characters (UInt32.le_iff_toNat_le.mp h.1) (UInt32.le_iff_toNat_le.mp h.2))

theorem mem_digits {c : Char} (h : c.isDigit = true) : c ∈ characters '0' '9' := by
  unfold Char.isDigit at h
  simp only [Bool.and_eq_true, decide_eq_true_eq] at h
  exact mem_characters (UInt32.le_iff_toNat_le.mp h.1) (UInt32.le_iff_toNat_le.mp h.2)

theorem flatten_map_singleton (text : Text) : (text.map ([·])).flatten = text := by
  induction text with
  | nil => rfl
  | cons c text ih => simp [ih]

theorem mem_NAME {name : Text} (h : validName name = true) : name ∈ NAME.matches' := by
  cases name with
  | nil => simp [validName] at h
  | cons first rest =>
    rw [validName, Bool.and_eq_true, List.all_eq_true] at h
    have hfirst : first ∈ letters ++ ['_', '-'] := by
      have h₁ := h.1
      simp only [Bool.or_eq_true, beq_iff_eq] at h₁
      rcases h₁ with (h₁ | rfl) | rfl
      · exact List.mem_append_left _ (mem_letters h₁)
      · exact List.mem_append_right _ (by decide)
      · exact List.mem_append_right _ (by decide)
    have hrest : ∀ c ∈ rest, c ∈ letters ++ characters '0' '9' ++ ['_', '-'] := by
      intro c hc
      have h₂ := h.2 c hc
      simp only [Char.isAlphanum, Bool.or_eq_true, beq_iff_eq] at h₂
      rcases h₂ with ((h₂ | h₂) | rfl) | rfl
      · exact List.mem_append_left _ (List.mem_append_left _ (mem_letters h₂))
      · exact List.mem_append_left _ (List.mem_append_right _ (mem_digits h₂))
      · exact List.mem_append_right _ (by decide)
      · exact List.mem_append_right _ (by decide)
    rw [← List.singleton_append, ← flatten_map_singleton rest]
    refine append_mem_mul (mem_oneOf hfirst) (flatten_mem_star fun y hy => ?_)
    obtain ⟨c, hc, rfl⟩ := List.mem_map.mp hy
    exact mem_oneOf (hrest c hc)

theorem mem_names {path : Text} (h : validPath path = true) :
    path ∈ (NAME * star (char '.' * NAME)).matches' := by
  obtain ⟨names, hne, hn, rfl⟩ := validPath_iff.mp h
  exact mem_separated '.' hne fun n hmem => mem_NAME (hn n hmem)

theorem mem_MODIFIER (m : Modifier) : ':' :: m.text ∈ MODIFIER.matches' := by
  refine cons_mem_mul ':' ?_
  cases m with
  | all => exact mem_add_left (mem_add_left (mem_literal _))
  | children => exact mem_add_left (mem_add_right (mem_literal _))
  | descendants => exact mem_add_right (mem_literal _)

theorem mem_PATH {path : Text} (h : validPath path = true) :
    path ∈ PATH.matches' ∧ '@' :: path ∈ PATH.matches' := by
  constructor
  · exact append_mem_mul nil_mem_optional (mem_names h)
  · rw [← List.singleton_append]
    exact append_mem_mul (mem_optional (singleton_mem_char '@')) (mem_names h)

theorem mem_modified {path : Text} (h : path ∈ PATH.matches') :
    path ∈ SEGMENT.matches' ∧ ∀ m : Modifier, path ++ ':' :: m.text ∈ SEGMENT.matches' := by
  constructor
  · rw [← List.append_nil path]
    exact mem_add_left (mem_add_left (mem_add_right (append_mem_mul h nil_mem_optional)))
  · intro m
    exact mem_add_left (mem_add_left (mem_add_right
      (append_mem_mul h (mem_optional (mem_MODIFIER m)))))

variable {segment : Text}

/-- **The expression admits what the Rust grammar admits.** -/
theorem mem_SEGMENT (h : validSegment segment = true) : segment ∈ SEGMENT.matches' := by
  rcases validSegment_cases h with h | ⟨m, rfl⟩ | hp | ⟨path, m, rfl, hp⟩
  · cases h with
    | engine => exact mem_add_left (mem_add_left (mem_add_left (cons_mem_mul '~' nil_mem_optional)))
    | component path hp => exact (mem_modified (mem_PATH hp).2).1
    | engineAll =>
      exact mem_add_left (mem_add_left (mem_add_left (cons_mem_mul '~' (mem_optional
        (cons_mem_mul ':' (mem_add_left (mem_literal "all".toList)))))))
    | engineDescendants =>
      exact mem_add_left (mem_add_left (mem_add_left (cons_mem_mul '~' (mem_optional
        (cons_mem_mul ':' (mem_add_right (mem_literal "descendants".toList)))))))
    | everything m => exact mem_add_left (mem_add_right (cons_mem_mul '@' (mem_MODIFIER m)))
    | under path m hp => exact (mem_modified (mem_PATH hp).2).2 m
  · exact mem_add_right (mem_MODIFIER m)
  · exact (mem_modified (mem_PATH hp).1).1
  · exact (mem_modified (mem_PATH hp).1).2 m

theorem validated_REGEX {segments : List Text} (hne : segments ≠ [])
    (h : ∀ segment ∈ segments, validSegment segment = true) :
    validated REGEX (['|'].intercalate segments) = some (['|'].intercalate segments) := by
  rw [validated, if_pos]
  rw [← List.append_nil (['|'].intercalate segments)]
  exact append_mem_mul (mem_separated '|' hne fun s hs => mem_SEGMENT (h s hs)) nil_mem_optional

theorem validated_ADDRESS {address : Text} (h : validAddress address = true) :
    validated ADDRESS address = some address := by
  rw [validated, if_pos]
  rw [← List.append_nil address]
  refine append_mem_mul ?_ nil_mem_optional
  rcases validAddress_cases h with rfl | ⟨path, rfl, hp⟩
  · exact mem_add_left (singleton_mem_char '~')
  · exact mem_add_right (cons_mem_mul '@' (mem_names hp))

/-! ## 4. The method answers what the Rust method answers -/

theorem splitOn_colon (front : Text) (h : ':' ∉ front) (m : Modifier) :
    (front ++ ':' :: m.text).splitOn ':' = [front, m.text] := by
  rw [List.splitOn_append_cons_self_of_not_mem h]
  cases m <;> rfl

theorem isPrefixOf_dot (base address : Text) : (base ++ ['.']).isPrefixOf address =
      ((address.dropPrefix? base).bind (·.dropPrefix? ['.'])).isSome := by
  rw [Bool.eq_iff_iff, List.isPrefixOf_iff_prefix, Option.isSome_iff_exists]
  constructor
  · rintro ⟨rest, rfl⟩
    exact ⟨rest, descendant_eq_some.mpr (by simp)⟩
  · rintro ⟨rest, h⟩
    exact ⟨rest, by rw [descendant_eq_some.mp h]; simp⟩

theorem dot_not_behind_dot {path rest : Text} (h : validAddress ('@' :: path ++ '.' :: rest) = true) :
    ∀ rest', rest ≠ '.' :: rest' := by
  rintro rest' rfl
  rcases validAddress_cases h with h | ⟨path', h, hp⟩
  · simp at h
  · rw [List.cons_append, List.cons.injEq] at h
    rw [← h.2, validPath_append, Bool.and_eq_true] at hp
    have hnil := validPath_append [] rest'
    rw [List.nil_append, hp.2] at hnil
    simp [validPath] at hnil

/-- **One segment: the two implementations agree.** -/
theorem segmentSelects_eq {address segment : Text} (ha : validAddress address = true) (hs : Absolute segment) :
    AddressSelector.segmentSelects address segment = some (segmentMatches segment address) := by
  have hcolon : ∀ {path : Text}, validPath path = true → ':' ∉ '@' :: path :=
    fun hp => by simp [not_mem_of_validPath hp (c := ':') (by decide)]
  have hliteral : ':' ∉ segment →
      AddressSelector.segmentSelects address segment = some (segmentMatches segment address) := by
    intro hc
    rw [AddressSelector.segmentSelects, if_pos hc, segmentMatches,
      (splitModifier_eq_none hs).mpr hc]
  have hmodified : ∀ (front : Text) (m : Modifier), ':' ∉ front → segment = front ++ ':' :: m.text →
      segment.splitOn ':' = [front, m.text] ∧ splitModifier segment = some (front, m) ∧
        ¬ ':' ∉ segment := by
    rintro front m hf rfl
    exact ⟨splitOn_colon front hf m, splitModifier_append front hf m, by simp⟩
  cases hs with
  | engine => exact hliteral (by decide)
  | component path hp => exact hliteral (hcolon hp)
  | engineAll => rfl
  | engineDescendants => rfl
  | everything m =>
    obtain ⟨h₁, h₂, h₃⟩ := hmodified ['@'] m (by decide) rfl
    rw [AddressSelector.segmentSelects, if_neg h₃, segmentMatches, h₁, h₂]
    cases m <;> rfl
  | under path m hp =>
    obtain ⟨h₁, h₂, h₃⟩ := hmodified ('@' :: path) m (hcolon hp) rfl
    have ht : ('@' :: path) ≠ ['~'] := by simp
    have hb : ('@' :: path) ≠ ['@'] := by simpa using (validPath_characters hp).1
    rw [AddressSelector.segmentSelects, if_neg h₃, segmentMatches, h₁, h₂]
    simp only [if_neg ht, if_neg hb, isPrefixOf_dot]
    cases m with
    | all => rfl
    | descendants => rfl
    | children =>
      cases hd : (address.dropPrefix? ('@' :: path)).bind (·.dropPrefix? ['.']) with
      | none => rfl
      | some rest =>
        have haddress := descendant_eq_some.mp hd
        have hdrop : address.drop (('@' :: path).length + 2) = rest.drop 1 := by
          rw [haddress, ← List.drop_drop, List.drop_append_of_le_length (by simp)]
          simp
        have hcount : ((rest.drop 1).count '.' == 0) = !rest.contains '.' := by
          rw [haddress] at ha
          cases rest with
          | nil => rfl
          | cons c rest =>
            have hc : c ≠ '.' := by
              rintro rfl
              exact dot_not_behind_dot ha rest rfl
            rw [Bool.eq_iff_iff]
            simp [List.count_eq_zero, Ne.symm hc]
        rw [hdrop, hcount]
        rfl

/-- The bare `all` is the bare modifier. -/
def normalize (segment : Text) : Text := if segment = "all".toList then ":all".toList else segment

theorem validSegment_normalize (h : validSegment segment = true) : validSegment (normalize segment) = true := by
  unfold normalize
  split
  · decide
  · exact h

theorem not_mem_of_validSegment {c : Char} (h : validSegment segment = true)
    (hc : (c == '.' || nameCharacter c) = false) (hmark : c ∉ ['~', '@', ':']) : c ∉ segment := by
  have hpath : ∀ {path : Text}, validPath path = true → c ∉ path :=
    fun hp => not_mem_of_validPath hp hc
  have hmod : ∀ m : Modifier, c ∉ m.text := by
    intro m hmem
    have hname : m.text.all nameCharacter = true := by cases m <;> decide
    simp [List.all_eq_true.mp hname c hmem] at hc
  simp only [List.mem_cons, List.not_mem_nil, or_false, not_or] at hmark
  rcases validSegment_cases h with h | ⟨m, rfl⟩ | hp | ⟨path, m, rfl, hp⟩
  · cases h with
    | engine => simp [hmark]
    | component path hp => simp [hmark, hpath hp]
    | engineAll =>
      show c ∉ '~' :: ':' :: Modifier.all.text
      simp [hmark, hmod .all]
    | engineDescendants =>
      show c ∉ '~' :: ':' :: Modifier.descendants.text
      simp [hmark, hmod .descendants]
    | everything m => simp [hmark, hmod m]
    | under path m hp => simp [hmark, hpath hp, hmod m]
  · simp [hmark, hmod m]
  · exact hpath hp
  · simp [hmark, hpath hp, hmod m]

theorem bar_not_mem_of_validSegment (h : validSegment segment = true) : '|' ∉ segment :=
  not_mem_of_validSegment h (by decide) (by decide)

theorem mapM_eq_some {α β : Type} {f : α → Option β} {g : α → β} : ∀ {items : List α},
    (∀ item ∈ items, f item = some (g item)) → items.mapM f = some (items.map g)
  | [], _ => rfl
  | item :: items, h => by
      rw [List.mapM_cons, h item (by simp),
        mapM_eq_some fun i hi => h i (List.mem_cons_of_mem item hi)]
      rfl

theorem normalizedSegments_intercalate {segments : List Text} (hne : segments ≠ [])
    (h : ∀ segment ∈ segments, validSegment segment = true) :
    AddressSelector.normalizedSegments (['|'].intercalate segments) = some (segments.map normalize) := by
  rw [AddressSelector.normalizedSegments,
    List.splitOn_intercalate '|' (fun s hs => bar_not_mem_of_validSegment (h s hs)) hne]
  refine mapM_eq_some fun segment hs => ?_
  have hone := @validated_REGEX [normalize segment] (by simp)
    (by simpa using validSegment_normalize (h segment hs))
  rwa [List.intercalate_singleton] at hone

theorem anySelects_eq {address : Text} : ∀ {segments : List Text}, (∀ segment ∈ segments,
      AddressSelector.segmentSelects address segment = some (segmentMatches segment address)) →
      AddressSelector.anySelects address segments = some (segments.any (segmentMatches · address))
  | [], _ => rfl
  | segment :: segments, h => by
      rw [AddressSelector.anySelects, h segment (by simp),
        anySelects_eq fun s hs => h s (List.mem_cons_of_mem segment hs), List.any_cons]
      cases segmentMatches segment address <;> rfl

/-- What the method makes of the normalized segments. -/
theorem map_absolute (segments : List Text) (root : Text) : (segments.map normalize).map (fun segment =>
    if [':'].isPrefixOf segment then root ++ segment
    else if ['~'].isPrefixOf segment || ['@'].isPrefixOf segment then segment
    else if root = ['@'] then root ++ segment
    else root ++ ['.'] ++ segment) = segments.map fun segment => absoluteSegment segment root := by
  rw [List.map_map]
  refine List.map_congr_left fun segment _ => ?_
  simp [absoluteSegment, normalize]

section Resolved

variable {segments : List Text} {root : Option Text} (hne : segments ≠ [])
  (hs : ∀ segment ∈ segments, validSegment segment = true) (hr : ∀ r ∈ root, validAddress r = true)

include hs hr

theorem absolute_of_mem_resolved {segment : Text}
    (h : segment ∈ segments.map fun segment => absoluteSegment segment (base root)) : Absolute segment := by
  obtain ⟨held, hmem, rfl⟩ := List.mem_map.mp h
  exact absoluteSegment_absolute (hs held hmem) hr

include hne

/-- **What a selector resolves to.** -/
theorem asAbsolute_intercalate : AddressSelector.asAbsolute (['|'].intercalate segments) root =
    some (['|'].intercalate (segments.map fun segment => absoluteSegment segment (base root))) := by
  unfold AddressSelector.asAbsolute
  rw [normalizedSegments_intercalate hne hs]
  exact (congrArg (fun s => validated REGEX (['|'].intercalate s)) (map_absolute segments (base root))).trans
    (validated_REGEX (by simpa using hne) fun segment hmem => (absolute_of_mem_resolved hs hr hmem).validSegment)

end Resolved

/-- An absolute segment opens with a mark, so it is not the bare `all`. -/
theorem normalize_of_absolute (h : Absolute segment) : normalize segment = segment := by
  unfold normalize
  rw [if_neg]
  cases h <;> simp

/-- **The Python method answers what the Rust method answers.** -/
theorem matches_eq (selector : Database.AddressSelector) {address : Text} {root : Option Text}
    (ha : validAddress address = true) (hr : ∀ r ∈ root, validAddress r = true) :
    AddressSelector.matches (['|'].intercalate selector.segments) address root =
      some (selector.matches address root) := by
  let absolute := selector.segments.map fun segment => absoluteSegment segment (base root)
  have hne : absolute ≠ [] := by simpa [absolute] using selector.nonempty
  have habs : ∀ segment ∈ absolute, Absolute segment :=
    fun segment hs => absolute_of_mem_resolved selector.valid hr hs
  have hvalid : ∀ segment ∈ absolute, validSegment segment = true :=
    fun segment hs => (habs segment hs).validSegment
  have hnormal : absolute.map normalize = absolute :=
    (List.map_congr_left fun segment hs => normalize_of_absolute (habs segment hs)).trans (List.map_id absolute)
  rw [AddressSelector.matches, validated_ADDRESS ha, asAbsolute_intercalate selector.nonempty selector.valid hr]
  show ((AddressSelector.normalizedSegments (['|'].intercalate absolute)).bind
    fun segments => AddressSelector.anySelects address segments) = _
  rw [normalizedSegments_intercalate hne hvalid, hnormal, Option.bind_some,
    anySelects_eq fun segment hs => segmentSelects_eq ha (habs segment hs)]
  simp [absolute, Database.AddressSelector.matches, List.any_map, Function.comp_def]

/-! ## 5. One selector semantics in three places -/

/-- **The three tests agree**: for every valid selector, root and address, the Python method, the
    Rust method and the compiled condition of either dialect, on any row that holds the address,
    answer the same, and each does answer. -/
theorem selectors_agree (selector : Database.AddressSelector) (root : Option Text)
    (hr : ∀ r ∈ root, validAddress r = true) (address : Text) (ha : validAddress address = true)
    (lower : Char → Char) (call : String → List Value → Value) (rows : List Row) (row : Row)
    (key : String) (hrow : row key = .text address) (dialect : SqlDialect) :
    AddressSelector.matches (['|'].intercalate selector.segments) address root =
        some (selector.matches address root) ∧
      (selector.condition key root dialect).eval (dialect.backend lower call) rows row =
        some (selector.matches address root) :=
  ⟨matches_eq selector ha hr, selector.condition_eval lower call rows hr hrow dialect⟩

/-- The selector `motor:children|~`. -/
def motorChildren : Database.AddressSelector where
  segments := ["motor:children".toList, "~".toList]
  valid := by decide
  nonempty := by decide

theorem selectors_agree_motorChildren :
    AddressSelector.matches "motor:children|~".toList "@deck.motor.coil".toList
        (some "@deck".toList) = some true ∧
      (motorChildren.condition "address" (some "@deck".toList) .postgres).eval
        (SqlDialect.postgres.backend id fun _ _ => .null) []
        (fun _ => .text "@deck.motor.coil".toList) = some true :=
  selectors_agree motorChildren (some "@deck".toList) (by decide) "@deck.motor.coil".toList
    (by decide) id (fun _ _ => .null) [] (fun _ => .text "@deck.motor.coil".toList) "address" rfl
    .postgres

end Ceres.Address
