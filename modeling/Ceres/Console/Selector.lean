/-
  File:      Ceres/Console/Selector.lean
  Subject:   ADDRESS SELECTORS IN THE CONSOLE (`console/app/api/address.ts`), against the Python selectors.

  The constructor trims its text and admits it by an expression that ends at the end of the text. Python
  reads a bare `all` as `:all` before it resolves a segment, and the console does not.

  * `trim`, `AddressSelector.parse`, `Address.parse` -- the constructors, `none` is an `Error`;
  * `asAbsolute`, `segmentSelects`, `selects` -- the methods;
  * **`selectors_mirror_iff`** -- on which selectors, roots and addresses the two languages answer the same.
-/
import Mathlib.Data.List.DropRight
import Ceres.Grammar

namespace Ceres.Console.Selector

open Ceres.Library
open Ceres.Database (base splitOnce splitOnce_append splitOnce_eq_none Modifier Absolute segmentMatches
  splitModifier splitModifier_append splitModifier_eq_none absoluteSegment absoluteSegment_absolute validSegment
  validSegment_cases validAddress validPath base_cases not_mem_of_validPath validPath_characters
  descendant_eq_some)
open Ceres.Address

/-! ## 1. The constructors -/

/-- What `String.prototype.trim` drops at the ends. -/
def whitespace : List Char :=
  ['\t', '\n', Char.ofNat 0x0b, Char.ofNat 0x0c, '\r', ' ', Char.ofNat 0xa0, Char.ofNat 0x1680] ++
    characters (Char.ofNat 0x2000) (Char.ofNat 0x200a) ++
    [Char.ofNat 0x2028, Char.ofNat 0x2029, Char.ofNat 0x202f, Char.ofNat 0x205f, Char.ofNat 0x3000,
      Char.ofNat 0xfeff]

def trim (text : Text) : Text := (text.dropWhile whitespace.contains).rdropWhile whitespace.contains

/-- A selector, `^(?:SEGMENT)(?:\|(?:SEGMENT))*$`; without the flag `m` the `$` stands at the end only. -/
def addressSelectorRegex : RegularExpression Char := SEGMENT * .star (.char '|' * SEGMENT)

/-- An address, `^(?:~|@?NAME(\.NAME)*)$` -/
def addressRegex : RegularExpression Char := .char '~' + PATH

def AddressSelector.parse (text : Text) : Option Text := validated addressSelectorRegex (trim text)

def Address.parse (text : Text) : Option Text := (AddressSelector.parse text).bind (validated addressRegex)

/-! ## 2. The methods -/

/-- One segment against the base. -/
def resolve (base segment : Text) : Text :=
  if [':'].isPrefixOf segment then base ++ segment
  else if ['~'].isPrefixOf segment || ['@'].isPrefixOf segment then segment
  else if base = ['@'] then base ++ segment
  else if segment = [] then base
  else base ++ '.' :: segment

def asAbsolute (selector : Text) (root : Option Text) : Option Text :=
  AddressSelector.parse (['|'].intercalate ((selector.splitOn '|').map (resolve (base root))))

def segmentSelects (segment address : Text) : Bool :=
  match splitOnce ':' segment with
  | none => address == segment
  | some (base, modifier) =>
    if base = ['~'] then modifier == "all".toList || address != ['~']
    else if base = ['@'] then
      if modifier = "children".toList then ['@'].isPrefixOf address && !address.contains '.'
      else address != ['~']
    else
      let descendant := if (base ++ ['.']).isPrefixOf address then some (address.drop (base.length + 1)) else none
      if modifier = "all".toList then address == base || descendant.isSome
      else if modifier = "descendants".toList then descendant.isSome
      else descendant.any fun rest => !rest.contains '.'

def selects (selector address : Text) : Bool := (selector.splitOn '|').any (segmentSelects · address)

/-- `AddressSelector.parse(text).asAbsolute(root).selects(address)` -/
def answer (text : Text) (root : Option Text) (address : Text) : Option Bool := do
  let selector ← AddressSelector.parse text
  let absolute ← asAbsolute selector root
  return selects absolute address

/-! ## 3. What the constructors take -/

theorem trim_eq_self {text : Text} (h : ∀ c ∈ text, whitespace.contains c = false) : trim text = text := by
  have hfront : text.dropWhile whitespace.contains = text := by
    rw [List.dropWhile_eq_self_iff]
    intro hlength
    rw [h _ (List.getElem_mem hlength)]
    exact Bool.false_ne_true
  rw [trim, hfront, List.rdropWhile_eq_self_iff]
  intro hne
  rw [h _ (List.getLast_mem hne)]
  exact Bool.false_ne_true

theorem not_whitespace_of_validSegment {segment : Text} (h : validSegment segment = true) :
    ∀ c ∈ segment, whitespace.contains c = false := by
  intro c hc
  by_contra hspace
  rw [Bool.not_eq_false, List.contains_iff_mem] at hspace
  have hall : whitespace.all (fun c => !(c == '.' || Ceres.Database.nameCharacter c) &&
      !(['~', '@', ':'].contains c)) = true := by decide
  have hmark := List.all_eq_true.mp hall c hspace
  rw [Bool.and_eq_true, Bool.not_eq_true', Bool.not_eq_true'] at hmark
  refine not_mem_of_validSegment h hmark.1 ?_ hc
  intro hmem
  rw [List.contains_iff_mem.mpr hmem] at hmark
  exact absurd hmark.2 (by decide)

theorem not_whitespace_of_segments {segments : List Text} (h : ∀ s ∈ segments, validSegment s = true) :
    ∀ c ∈ ['|'].intercalate segments, whitespace.contains c = false := by
  intro c hc
  rcases Ceres.Database.mem_intercalate hc with rfl | ⟨segment, hsegment, hc⟩
  · decide
  · exact not_whitespace_of_validSegment (h segment hsegment) c hc

theorem mem_addressSelectorRegex_iff {text : Text} : text ∈ addressSelectorRegex.matches' ↔ pushAccepts text := by
  rw [addressSelectorRegex, mem_separated_iff, pushAccepts_iff]
  simp only [mem_SEGMENT_iff]

/-- **The constructor takes a join of valid segments as it stands.** -/
theorem parse_intercalate {segments : List Text} (hne : segments ≠ [])
    (h : ∀ segment ∈ segments, validSegment segment = true) :
    AddressSelector.parse (['|'].intercalate segments) = some (['|'].intercalate segments) := by
  rw [AddressSelector.parse, trim_eq_self (not_whitespace_of_segments h), validated, if_pos]
  exact mem_addressSelectorRegex_iff.mpr (pushAccepts_iff.mpr ⟨segments, hne, h, rfl⟩)

theorem pushAccepts_of_parse {text selector : Text} (h : AddressSelector.parse text = some selector) :
    selector = trim text ∧ pushAccepts selector := by
  unfold AddressSelector.parse validated at h
  by_cases hmem : trim text ∈ addressSelectorRegex.matches'
  · rw [if_pos hmem] at h
    cases h
    exact ⟨rfl, mem_addressSelectorRegex_iff.mp hmem⟩
  · rw [if_neg hmem] at h
    cases h

/-- An address that both languages take as it stands. -/
def Taken (address : Text) : Prop := Address.parse address = some address ∧ validated ADDRESS address = some address

theorem validAddress_of_taken {address : Text} (h : Taken address) : validAddress address = true := by
  obtain ⟨hconsole, hpython⟩ := h
  obtain ⟨selector, hselector, hvalidated⟩ := Option.bind_eq_some_iff.mp hconsole
  have hsame : selector = address := by
    unfold validated at hvalidated
    by_cases hmem : selector ∈ addressRegex.matches'
    · rw [if_pos hmem] at hvalidated
      exact Option.some.inj hvalidated
    · rw [if_neg hmem] at hvalidated
      cases hvalidated
  have hnewline : '\n' ∉ address := by
    rw [← hsame]
    exact newline_not_mem_of_pushAccepts (pushAccepts_of_parse hselector).2
  unfold validated at hpython
  by_cases hmem : address ∈ ADDRESS.matches'
  · rcases mem_ADDRESS_iff.mp hmem with hvalid | ⟨front, -, hfront⟩
    · exact hvalid
    · rw [hfront] at hnewline
      simp at hnewline
  · rw [if_neg hmem] at hpython
    cases hpython

/-- What the recogniser accepts, the constructor takes as it stands. -/
theorem parse_of_pushAccepts {text : Text} (h : pushAccepts text) : AddressSelector.parse text = some text := by
  obtain ⟨segments, hne, hall, rfl⟩ := pushAccepts_iff.mp h
  exact parse_intercalate hne hall

/-- **Both languages take just the valid addresses.** -/
theorem taken_iff {address : Text} : Taken address ↔ validAddress address = true := by
  refine ⟨validAddress_of_taken, fun h => ?_⟩
  have hmem : address ∈ addressRegex.matches' ∧ address ∈ SEGMENT.matches' := by
    rcases validAddress_iff.mp h with rfl | ⟨path, rfl, hpath⟩
    · exact ⟨mem_add_left (singleton_mem_char '~'), mem_SEGMENT (by decide)⟩
    · exact ⟨mem_add_right (mem_PATH hpath).2, (mem_modified (mem_PATH hpath).2).1⟩
  have hparse := parse_intercalate (List.cons_ne_nil address [])
    (List.forall_mem_singleton.mpr (mem_SEGMENT_iff.mp hmem.2))
  rw [List.intercalate_singleton] at hparse
  refine ⟨?_, validated_ADDRESS h⟩
  rw [Address.parse, hparse, Option.bind_some, validated, if_pos hmem.1]

/-! ## 4. One segment -/

theorem ne_nil_of_validSegment {segment : Text} (h : validSegment segment = true) : segment ≠ [] := by
  rintro rfl
  exact absurd h (by decide)

/-- A segment that is no bare `all` is resolved as in Python. -/
theorem resolve_eq_absoluteSegment {segment base : Text} (hne : segment ≠ []) (hall : segment ≠ "all".toList) :
    resolve base segment = absoluteSegment segment base := by
  unfold resolve absoluteSegment
  simp only [if_neg hall, if_neg hne]

theorem descendant_eq (base address : Text) :
    (if (base ++ ['.']).isPrefixOf address then some (address.drop (base.length + 1)) else none) =
      (address.dropPrefix? base).bind (·.dropPrefix? ['.']) := by
  by_cases h : (base ++ ['.']).isPrefixOf address = true
  · obtain ⟨rest, rfl⟩ := List.isPrefixOf_iff_prefix.mp h
    rw [if_pos h, descendant_eq_some.mpr (by simp : base ++ ['.'] ++ rest = base ++ '.' :: rest)]
    congr 1
    rw [show base.length + 1 = (base ++ ['.']).length by simp, List.drop_left]
  · rw [if_neg h]
    rw [isPrefixOf_dot] at h
    exact (Option.not_isSome_iff_eq_none.mp h).symm

/-- **An absolute segment selects the same in the console.** -/
theorem segmentSelects_eq_matches {segment : Text} (h : Absolute segment) (address : Text) :
    segmentSelects segment address = segmentMatches segment address := by
  have hliteral : ':' ∉ segment → segmentSelects segment address = segmentMatches segment address := by
    intro hc
    rw [segmentSelects, segmentMatches, splitOnce_eq_none.mpr hc, (splitModifier_eq_none h).mpr hc]
  have hcolon : ∀ {path : Text}, validPath path = true → ':' ∉ '@' :: path :=
    fun hp => by simp [not_mem_of_validPath hp (c := ':') (by decide)]
  cases h with
  | engine => exact hliteral (by decide)
  | component path hp => exact hliteral (hcolon hp)
  | engineAll => rfl
  | engineDescendants => rfl
  | everything m =>
    have hsplit : splitOnce ':' ('@' :: ':' :: m.text) = some (['@'], m.text) :=
      @splitOnce_append ':' ['@'] m.text (by decide)
    have hmodifier : splitModifier ('@' :: ':' :: m.text) = some (['@'], m) :=
      splitModifier_append ['@'] (by decide) m
    rw [segmentSelects, segmentMatches, hsplit, hmodifier]
    cases m <;> rfl
  | under path m hp =>
    have hengine : ('@' :: path) ≠ ['~'] := by simp
    have hanchor : ('@' :: path) ≠ ['@'] := by simpa using (validPath_characters hp).1
    rw [segmentSelects, segmentMatches, splitOnce_append m.text (hcolon hp),
      splitModifier_append ('@' :: path) (hcolon hp) m]
    simp only [if_neg hengine, if_neg hanchor, descendant_eq]
    cases m <;> rfl

/-! ## 5. The two languages -/

/-- What the bare `all` picks out in Python: the root and what is beneath it, or every component. -/
def Beneath (root : Option Text) (address : Text) : Prop :=
  if base root = ['@'] then address ≠ ['~'] else address = base root ∨ base root ++ ['.'] <+: address

/-- What it names in the console: the component `all` directly beneath the root. -/
def namedAll (root : Option Text) : Text := resolve (base root) "all".toList

theorem namedAll_cases {root : Option Text} (hr : ∀ r ∈ root, validAddress r = true) :
    (base root = ['@'] ∧ namedAll root = "@all".toList) ∨
      ∃ path, base root = '@' :: path ∧ validPath path = true ∧
        namedAll root = '@' :: (path ++ '.' :: "all".toList) := by
  rcases base_cases hr with hbase | ⟨path, hbase, hp⟩
  · exact .inl ⟨hbase, by rw [namedAll, hbase]; decide⟩
  · refine .inr ⟨path, hbase, hp, ?_⟩
    have hanchor : ('@' :: path) ≠ ['@'] := by simpa using (validPath_characters hp).1
    rw [namedAll, hbase, resolve, if_neg hanchor]
    rfl

theorem namedAll_absolute {root : Option Text} (hr : ∀ r ∈ root, validAddress r = true) :
    Absolute (namedAll root) := by
  rcases namedAll_cases hr with ⟨-, hnamed⟩ | ⟨path, -, hp, hnamed⟩
  · rw [hnamed]
    exact .component "all".toList (by decide)
  · rw [hnamed]
    refine .component _ ?_
    rw [Ceres.Database.validPath_append, hp]
    decide

theorem beneath_namedAll {root : Option Text} (hr : ∀ r ∈ root, validAddress r = true) :
    Beneath root (namedAll root) := by
  rcases namedAll_cases hr with ⟨hbase, hnamed⟩ | ⟨path, hbase, hp, hnamed⟩
  · rw [Beneath, if_pos hbase, hnamed]
    decide
  · have hanchor : ('@' :: path) ≠ ['@'] := by simpa using (validPath_characters hp).1
    rw [Beneath, hbase, if_neg hanchor, hnamed]
    exact .inr ⟨"all".toList, by simp⟩

/-- The bare `all` in Python. -/
theorem matches_all_iff {root : Option Text} (hr : ∀ r ∈ root, validAddress r = true) (address : Text) :
    segmentMatches (absoluteSegment "all".toList (base root)) address = true ↔ Beneath root address := by
  have habsolute : absoluteSegment "all".toList (base root) = base root ++ ':' :: Modifier.all.text := rfl
  rw [habsolute, Beneath, segmentMatches]
  rcases base_cases hr with hbase | ⟨path, hbase, hp⟩
  · rw [hbase, if_pos rfl, splitModifier_append ['@'] (by decide) .all]
    simp
  · have hengine : ('@' :: path) ≠ ['~'] := by simp
    have hanchor : ('@' :: path) ≠ ['@'] := by simpa using (validPath_characters hp).1
    have hcolon : ':' ∉ '@' :: path := by simp [not_mem_of_validPath hp (c := ':') (by decide)]
    rw [hbase, if_neg hanchor, splitModifier_append ('@' :: path) hcolon .all]
    simp only [if_neg hengine, if_neg hanchor, ← isPrefixOf_dot]
    rw [Bool.or_eq_true, beq_iff_eq, List.isPrefixOf_iff_prefix]

/-- The bare `all` in the console. -/
theorem selects_all_iff {root : Option Text} (hr : ∀ r ∈ root, validAddress r = true) (address : Text) :
    segmentSelects (namedAll root) address = true ↔ address = namedAll root := by
  have hcolon : ':' ∉ namedAll root := by
    rcases namedAll_cases hr with ⟨-, hnamed⟩ | ⟨path, -, hp, hnamed⟩
    · rw [hnamed]
      decide
    · rw [hnamed]
      simp [not_mem_of_validPath hp (c := ':') (by decide)]
  rw [segmentSelects, splitOnce_eq_none.mpr hcolon, beq_iff_eq]

/-- Whether a segment other than the bare `all` picks out the address. -/
def OtherSelects (segments : List Text) (root : Option Text) (address : Text) : Prop :=
  ∃ segment ∈ segments, segment ≠ "all".toList ∧ segmentSelects (resolve (base root) segment) address = true

section Answers

variable {segments : List Text} {root : Option Text} (hne : segments ≠ [])
  (hs : ∀ segment ∈ segments, validSegment segment = true) (hr : ∀ r ∈ root, validAddress r = true)

include hs hr

theorem resolve_absolute {segment : Text} (hmem : segment ∈ segments) : Absolute (resolve (base root) segment) := by
  by_cases hall : segment = "all".toList
  · rw [hall]
    exact namedAll_absolute hr
  · rw [resolve_eq_absoluteSegment (ne_nil_of_validSegment (hs segment hmem)) hall]
    exact absoluteSegment_absolute (hs segment hmem) hr

include hne

/-- **What a selector resolves to.** -/
theorem asAbsolute_eq : asAbsolute (['|'].intercalate segments) root =
    some (['|'].intercalate (segments.map (resolve (base root)))) := by
  rw [asAbsolute, List.splitOn_intercalate '|' (fun s hmem => bar_not_mem_of_validSegment (hs s hmem)) hne]
  refine parse_intercalate (by simpa using hne) fun segment hmem => ?_
  obtain ⟨source, hsource, rfl⟩ := List.mem_map.mp hmem
  exact (resolve_absolute hs hr hsource).validSegment

/-- **What the console answers.** -/
theorem answer_eq (address : Text) : answer (['|'].intercalate segments) root address =
      some (segments.any fun segment => segmentSelects (resolve (base root) segment) address) := by
  have hbar : ∀ segment ∈ segments.map (resolve (base root)), '|' ∉ segment := by
    intro segment hmem
    obtain ⟨source, hsource, rfl⟩ := List.mem_map.mp hmem
    exact bar_not_mem_of_validSegment (resolve_absolute hs hr hsource).validSegment
  unfold answer
  rw [parse_intercalate hne hs]
  show (asAbsolute _ root).bind _ = _
  rw [asAbsolute_eq hne hs hr, Option.bind_some, selects, List.splitOn_intercalate '|' hbar (by simpa using hne),
    List.any_map]
  rfl

omit hne hs in
theorem console_iff (address : Text) :
    (segments.any fun segment => segmentSelects (resolve (base root) segment) address) = true ↔
      OtherSelects segments root address ∨ ("all".toList ∈ segments ∧ address = namedAll root) := by
  rw [List.any_eq_true]
  constructor
  · intro h
    obtain ⟨segment, hmem, hselects⟩ := h
    by_cases hall : segment = "all".toList
    · rw [hall] at hmem hselects
      exact .inr ⟨hmem, (selects_all_iff hr address).mp hselects⟩
    · exact .inl ⟨segment, hmem, hall, hselects⟩
  · intro h
    rcases h with ⟨segment, hmem, -, hselects⟩ | ⟨hmem, hnamed⟩
    · exact ⟨segment, hmem, hselects⟩
    · exact ⟨"all".toList, hmem, (selects_all_iff hr address).mpr hnamed⟩

omit hne in
theorem python_iff (address : Text) :
    (segments.any fun segment => segmentMatches (absoluteSegment segment (base root)) address) = true ↔
      OtherSelects segments root address ∨ ("all".toList ∈ segments ∧ Beneath root address) := by
  have hsame : ∀ segment ∈ segments, segment ≠ "all".toList →
      segmentMatches (absoluteSegment segment (base root)) address =
        segmentSelects (resolve (base root) segment) address := by
    intro segment hmem hall
    rw [segmentSelects_eq_matches (resolve_absolute hs hr hmem),
      resolve_eq_absoluteSegment (ne_nil_of_validSegment (hs segment hmem)) hall]
  rw [List.any_eq_true]
  constructor
  · intro h
    obtain ⟨segment, hmem, hmatches⟩ := h
    by_cases hall : segment = "all".toList
    · rw [hall] at hmem hmatches
      exact .inr ⟨hmem, (matches_all_iff hr address).mp hmatches⟩
    · rw [hsame segment hmem hall] at hmatches
      exact .inl ⟨segment, hmem, hall, hmatches⟩
  · intro h
    rcases h with ⟨segment, hmem, hall, hselects⟩ | ⟨hmem, hbeneath⟩
    · exact ⟨segment, hmem, (hsame segment hmem hall).trans hselects⟩
    · exact ⟨"all".toList, hmem, (matches_all_iff hr address).mpr hbeneath⟩

end Answers

/-- **The console's selectors mirror the Python ones** on a selector, a root and an address exactly if the
    selector has no bare `all`, or the address is not in the root, or it is the component `all` directly
    beneath the root, or another segment picks it out. -/
theorem selectors_mirror_iff (text : Text) (root : Option Text) (address : Text)
    (htext : AddressSelector.parse text = some text) (hroot : ∀ r ∈ root, Taken r) (haddress : Taken address) :
    (∃ b, answer text root address = some b ∧ Ceres.Address.AddressSelector.matches text address root = some b) ↔
      ("all".toList ∈ text.splitOn '|' → ¬ Beneath root address ∨ address = namedAll root ∨
        OtherSelects (text.splitOn '|') root address) := by
  obtain ⟨-, haccepts⟩ := pushAccepts_of_parse htext
  have hs : ∀ segment ∈ text.splitOn '|', validSegment segment = true := List.all_eq_true.mp haccepts
  have hne : text.splitOn '|' ≠ [] := List.splitOn_ne_nil '|' text
  have hr : ∀ r ∈ root, validAddress r = true := fun r hmem => validAddress_of_taken (hroot r hmem)
  have hconsole := answer_eq hne hs hr address
  have hpython := matches_eq ⟨text.splitOn '|', hs, hne⟩ (validAddress_of_taken haddress) hr
  rw [List.intercalate_splitOn] at hconsole hpython
  rw [hconsole, hpython]
  have hboth : (∃ b : Bool, some ((text.splitOn '|').any fun segment =>
        segmentSelects (resolve (base root) segment) address) = some b ∧
      some (Ceres.Database.AddressSelector.matches ⟨text.splitOn '|', hs, hne⟩ address root) = some b) ↔
      (OtherSelects (text.splitOn '|') root address ∨
          ("all".toList ∈ text.splitOn '|' ∧ address = namedAll root) ↔
        OtherSelects (text.splitOn '|') root address ∨
          ("all".toList ∈ text.splitOn '|' ∧ Beneath root address)) := by
    rw [← console_iff hr, ← python_iff hs hr, ← Bool.eq_iff_iff]
    constructor
    · intro h
      obtain ⟨b, hleft, hright⟩ := h
      exact (Option.some.inj hleft).trans (Option.some.inj hright).symm
    · intro h
      exact ⟨_, rfl, congrArg some h.symm⟩
  rw [hboth]
  have hnamed : address = namedAll root → Beneath root address := by
    rintro rfl
    exact beneath_namedAll hr
  constructor
  · intro h hmem
    by_cases hbeneath : Beneath root address
    · rcases h.mpr (.inr ⟨hmem, hbeneath⟩) with hother | hall
      · exact .inr (.inr hother)
      · exact .inr (.inl hall.2)
    · exact .inl hbeneath
  · intro h
    constructor
    · intro hor
      exact hor.imp_right fun hall => ⟨hall.1, hnamed hall.2⟩
    · intro hor
      rcases hor with hother | ⟨hmem, hbeneath⟩
      · exact .inl hother
      · rcases h hmem with hnot | hall | hother
        · exact absurd hbeneath hnot
        · exact .inr ⟨hmem, hall⟩
        · exact .inl hother

/-- The children of `pump` beneath the rig. -/
theorem children_mirror :
    ∃ b, answer "pump:children|~".toList (some "@rig".toList) "@rig.pump.valve".toList = some b ∧
      Ceres.Address.AddressSelector.matches "pump:children|~".toList "@rig.pump.valve".toList
        (some "@rig".toList) = some b :=
  (selectors_mirror_iff "pump:children|~".toList (some "@rig".toList) "@rig.pump.valve".toList
    (parse_of_pushAccepts (by decide))
    (by rintro r ⟨⟩; exact taken_iff.mpr (by decide)) (taken_iff.mpr (by decide))).mpr
      fun hmem => absurd hmem (by decide)

/-- On the rig the bare `all` picks out the pump in Python and not in the console. -/
theorem bare_all_differs :
    AddressSelector.parse "all".toList = some "all".toList ∧ Taken "@rig".toList ∧ Taken "@rig.pump".toList ∧
      answer "all".toList (some "@rig".toList) "@rig.pump".toList = some false ∧
        Ceres.Address.AddressSelector.matches "all".toList "@rig.pump".toList (some "@rig".toList) = some true := by
  have hroot : ∀ r ∈ some "@rig".toList, validAddress r = true := by
    rintro r ⟨⟩
    decide
  have hall : ∀ segment ∈ ["all".toList], validSegment segment = true := List.forall_mem_singleton.mpr (by decide)
  have hconsole := answer_eq (List.cons_ne_nil _ _) hall hroot "@rig.pump".toList
  have haddress : validAddress "@rig.pump".toList = true := by decide
  have hpython := matches_eq ⟨["all".toList], hall, List.cons_ne_nil _ _⟩ haddress hroot
  rw [List.intercalate_singleton] at hconsole hpython
  refine ⟨parse_of_pushAccepts (by decide), taken_iff.mpr (by decide), taken_iff.mpr (by decide), hconsole.trans ?_,
    hpython.trans ?_⟩
  · decide
  · exact congrArg some (List.any_eq_true.mpr ⟨_, List.mem_cons_self, by decide⟩)

end Ceres.Console.Selector
