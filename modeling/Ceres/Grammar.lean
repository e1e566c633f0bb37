/-
  File:      Ceres/Grammar.lean
  Subject:   THE GRAMMARS OF SELECTORS AND ADDRESSES IN TWO LANGUAGES (`selector.rs`, `ceres/address.py`).

  Rust recognises a selector by hand, Python by a regular expression that ends in `$`, which also stands
  in front of a final newline.

  * `mem_NAME_iff`, `mem_SEGMENT_iff`, ... -- the expressions admit what the recognisers accept, part by
    part and in both directions;
  * `mem_REGEX_iff`, `mem_ADDRESS_iff` -- the whole expressions admit that, with or without a newline;
  * **`grammars_coincide_iff`** -- so the languages agree on a text exactly when it is not a text the
    recogniser accepts with a newline behind it.
-/
import Ceres.Address

namespace Ceres.Address

open Ceres.Library
open Ceres.Database
open RegularExpression

/-! ## 1. Expressions read backwards -/

theorem mem_mul_iff {r s : RegularExpression Char} {text : Text} :
    text ∈ (r * s).matches' ↔ ∃ a ∈ r.matches', ∃ b ∈ s.matches', a ++ b = text :=
  Language.mem_mul

variable {r : RegularExpression Char}

theorem mem_char_mul_iff {c : Char} {text : Text} :
    text ∈ (char c * r).matches' ↔ ∃ rest ∈ r.matches', text = c :: rest := by
  rw [mem_mul_iff]
  constructor
  · intro h
    obtain ⟨a, ha, b, hb, rfl⟩ := h
    obtain rfl : a = [c] := ha
    exact ⟨b, hb, rfl⟩
  · intro h
    obtain ⟨rest, hrest, rfl⟩ := h
    exact ⟨[c], rfl, rest, hrest, rfl⟩

theorem mem_oneOf_iff {text : Text} : ∀ {cs : List Char}, text ∈ (oneOf cs).matches' ↔ ∃ c ∈ cs, text = [c]
  | [] => by
      refine ⟨fun h => h.elim, fun h => ?_⟩
      obtain ⟨c, hc, -⟩ := h
      exact absurd hc List.not_mem_nil
  | c :: cs => by
      have hadd : text ∈ (oneOf (c :: cs)).matches' ↔ text = [c] ∨ text ∈ (oneOf cs).matches' := Iff.rfl
      rw [hadd, mem_oneOf_iff, List.exists_mem_cons_iff]

theorem mem_literal_iff {text : Text} : ∀ {wanted : Text}, text ∈ (literal wanted).matches' ↔ text = wanted
  | [] => Iff.rfl
  | c :: wanted => by
      rw [literal, mem_char_mul_iff]
      simp only [mem_literal_iff, exists_eq_left]

/-- **Items joined with a separator**, and nothing else. -/
theorem mem_separated_iff {separator : Char} {text : Text} : text ∈ (r * star (char separator * r)).matches' ↔
      ∃ items : List Text, items ≠ [] ∧ (∀ item ∈ items, item ∈ r.matches') ∧
        text = [separator].intercalate items := by
  constructor
  · intro h
    obtain ⟨item, hitem, rest, hrest, rfl⟩ := mem_mul_iff.mp h
    obtain ⟨parts, rfl, hparts⟩ := Language.mem_kstar.mp hrest
    have hitems : ∃ items : List Text, (∀ i ∈ items, i ∈ r.matches') ∧ parts = items.map (separator :: ·) := by
      clear hrest h
      induction parts with
      | nil => exact ⟨[], by simp, rfl⟩
      | cons part parts ih =>
        obtain ⟨items, hall, rfl⟩ := ih fun y hy => hparts y (List.mem_cons_of_mem part hy)
        obtain ⟨i, hi, rfl⟩ := mem_char_mul_iff.mp (hparts part List.mem_cons_self)
        exact ⟨i :: items, List.forall_mem_cons.mpr ⟨hi, hall⟩, rfl⟩
    obtain ⟨items, hall, rfl⟩ := hitems
    refine ⟨item :: items, List.cons_ne_nil item items, List.forall_mem_cons.mpr ⟨hitem, hall⟩, ?_⟩
    rw [intercalate_cons]
  · intro h
    obtain ⟨items, hne, hall, rfl⟩ := h
    exact mem_separated separator hne hall

/-! ## 2. Names and paths -/

theorem isAlpha_of_mem_letters {c : Char} (h : c ∈ letters) : c.isAlpha = true := by
  have hall : letters.all Char.isAlpha = true := by decide
  exact List.all_eq_true.mp hall c h

theorem isDigit_of_mem_characters {c : Char} (h : c ∈ characters '0' '9') : c.isDigit = true := by
  have hall : (characters '0' '9').all Char.isDigit = true := by decide
  exact List.all_eq_true.mp hall c h

theorem mem_NAME_iff {name : Text} : name ∈ NAME.matches' ↔ validName name = true := by
  refine ⟨fun h => ?_, mem_NAME⟩
  obtain ⟨a, ha, b, hb, rfl⟩ := mem_mul_iff.mp h
  obtain ⟨first, hfirst, rfl⟩ := mem_oneOf_iff.mp ha
  obtain ⟨parts, rfl, hparts⟩ := Language.mem_kstar.mp hb
  rw [List.singleton_append, validName, Bool.and_eq_true, List.all_eq_true]
  constructor
  · rcases List.mem_append.mp hfirst with hletter | hother
    · simp [isAlpha_of_mem_letters hletter]
    · simp only [List.mem_cons, List.not_mem_nil, or_false] at hother
      rcases hother with rfl | rfl <;> rfl
  · intro c hc
    obtain ⟨part, hpart, hc⟩ := List.mem_flatten.mp hc
    obtain ⟨d, hd, rfl⟩ := mem_oneOf_iff.mp (hparts part hpart)
    obtain rfl := List.mem_singleton.mp hc
    rcases List.mem_append.mp hd with hd | hother
    · rcases List.mem_append.mp hd with hletter | hdigit
      · simp [Char.isAlphanum, isAlpha_of_mem_letters hletter]
      · simp [Char.isAlphanum, isDigit_of_mem_characters hdigit]
    · simp only [List.mem_cons, List.not_mem_nil, or_false] at hother
      rcases hother with rfl | rfl <;> rfl

theorem mem_names_iff {path : Text} :
    path ∈ (NAME * star (char '.' * NAME)).matches' ↔ validPath path = true := by
  rw [mem_separated_iff, validPath_iff]
  simp only [mem_NAME_iff]

theorem mem_MODIFIER_iff {text : Text} : text ∈ MODIFIER.matches' ↔ ∃ m : Modifier, text = ':' :: m.text := by
  constructor
  · intro h
    obtain ⟨rest, hrest, rfl⟩ := mem_char_mul_iff.mp h
    rcases hrest with (hrest | hrest) | hrest
    · exact ⟨.all, congrArg _ (mem_literal_iff.mp hrest)⟩
    · exact ⟨.children, congrArg _ (mem_literal_iff.mp hrest)⟩
    · exact ⟨.descendants, congrArg _ (mem_literal_iff.mp hrest)⟩
  · intro h
    obtain ⟨m, rfl⟩ := h
    exact mem_MODIFIER m

theorem mem_PATH_iff {text : Text} : text ∈ PATH.matches' ↔
      validPath text = true ∨ ∃ path, text = '@' :: path ∧ validPath path = true := by
  constructor
  · intro h
    obtain ⟨a, ha, b, hb, rfl⟩ := mem_mul_iff.mp h
    rw [mem_names_iff] at hb
    rcases ha with ha | ha
    · obtain rfl : a = [] := ha
      exact .inl hb
    · obtain rfl : a = ['@'] := ha
      exact .inr ⟨b, rfl, hb⟩
  · intro h
    rcases h with h | ⟨path, rfl, h⟩
    · exact (mem_PATH h).1
    · exact (mem_PATH h).2

/-! ## 3. Segments -/

theorem validSegment_of_validPath {path : Text} (h : validPath path = true) :
    validSegment path = true ∧ ∀ m : Modifier, validSegment (path ++ ':' :: m.text) = true := by
  have hcolon : ':' ∉ path := not_mem_of_validPath h (by decide)
  have htilde : '~' ∉ path := not_mem_of_validPath h (by decide)
  have hanchor : '@' ∉ path := not_mem_of_validPath h (by decide)
  have hrelative : validOptionallyAbsolutePath path = true := by
    have hnone : path.dropPrefix? ['@'] = none := by
      cases hd : path.dropPrefix? ['@'] with
      | none => rfl
      | some rest =>
        obtain ⟨front, rfl, hfront⟩ := List.dropPrefix?_eq_some_iff.mp hd
        rw [beq_iff_eq] at hfront
        subst hfront
        simp at hanchor
    rw [validOptionallyAbsolutePath, hnone]
    exact h
  have hengine : ∀ rest : Text, path ++ rest ≠ "~".toList ∧ path ++ rest ≠ "~:all".toList ∧
      path ++ rest ≠ "~:descendants".toList := by
    intro rest
    have hne : path ≠ [] := by
      intro hnil
      rw [hnil] at h
      exact absurd h (by decide)
    obtain ⟨c, path, rfl⟩ := List.exists_cons_of_ne_nil hne
    have hc : c ≠ '~' := fun heq => htilde (heq ▸ List.mem_cons_self)
    refine ⟨?_, ?_, ?_⟩ <;> intro heq <;> exact hc (List.cons.inj heq).1
  constructor
  · have hthis := hengine []
    rw [List.append_nil] at hthis
    rw [validSegment, if_neg (by tauto), splitOnce_eq_none.mpr hcolon]
    exact hrelative
  · intro m
    rw [validSegment, if_neg (by have := hengine (':' :: m.text); tauto), splitOnce_append m.text hcolon]
    show ((Modifier.parse m.text).isSome && (_ || _ || _)) = true
    rw [Modifier.parse_eq_some.mpr rfl, hrelative]
    simp

/-- **The expression admits exactly the valid segments.** -/
theorem mem_SEGMENT_iff {segment : Text} : segment ∈ SEGMENT.matches' ↔ validSegment segment = true := by
  refine ⟨fun h => ?_, mem_SEGMENT⟩
  rcases h with ((hengine | hpath) | heverything) | hbare
  · obtain ⟨rest, hrest, rfl⟩ := mem_char_mul_iff.mp hengine
    rcases hrest with hrest | hrest
    · obtain rfl : rest = [] := hrest
      decide
    · obtain ⟨modifier, hmodifier, rfl⟩ := mem_char_mul_iff.mp hrest
      rcases hmodifier with hmodifier | hmodifier
      · rw [mem_literal_iff.mp hmodifier]
        decide
      · rw [mem_literal_iff.mp hmodifier]
        decide
  · obtain ⟨path, hmem, rest, hrest, rfl⟩ := mem_mul_iff.mp hpath
    rcases hrest with hrest | hrest
    · obtain rfl : rest = [] := hrest
      rw [List.append_nil]
      rcases mem_PATH_iff.mp hmem with hvalid | ⟨path, rfl, hvalid⟩
      · exact (validSegment_of_validPath hvalid).1
      · exact (Absolute.component path hvalid).validSegment
    · obtain ⟨m, rfl⟩ := mem_MODIFIER_iff.mp hrest
      rcases mem_PATH_iff.mp hmem with hvalid | ⟨path, rfl, hvalid⟩
      · exact (validSegment_of_validPath hvalid).2 m
      · exact (Absolute.under path m hvalid).validSegment
  · obtain ⟨rest, hrest, rfl⟩ := mem_char_mul_iff.mp heverything
    obtain ⟨m, rfl⟩ := mem_MODIFIER_iff.mp hrest
    exact (Absolute.everything m).validSegment
  · obtain ⟨m, rfl⟩ := mem_MODIFIER_iff.mp hbare
    cases m <;> decide

/-! ## 4. Selectors and addresses -/

/-- The Rust selector takes the value. -/
def pushAccepts (value : Text) : Prop := (value.splitOn '|').all validSegment = true

instance (value : Text) : Decidable (pushAccepts value) :=
  inferInstanceAs (Decidable ((value.splitOn '|').all validSegment = true))

theorem pushAccepts_iff {value : Text} : pushAccepts value ↔ ∃ items : List Text, items ≠ [] ∧
      (∀ item ∈ items, validSegment item = true) ∧ value = ['|'].intercalate items := by
  rw [pushAccepts, List.all_eq_true]
  constructor
  · intro h
    exact ⟨value.splitOn '|', List.splitOn_ne_nil '|' value, h, (List.intercalate_splitOn '|').symm⟩
  · intro h
    obtain ⟨items, hne, hall, rfl⟩ := h
    rw [List.splitOn_intercalate '|' (fun s hs => bar_not_mem_of_validSegment (hall s hs)) hne]
    exact hall

/-- A value is refused or taken whatever the selector holds already. -/
theorem push_isOk_iff (selector : Option Database.AddressSelector) (value : Text) :
    (∃ pushed, Database.AddressSelector.push selector value = .ok pushed) ↔ pushAccepts value := by
  unfold Database.AddressSelector.push pushAccepts
  by_cases h : (value.splitOn '|').all validSegment = true
  · simp [h]
  · simp [h]

theorem mem_mul_newline_iff {text : Text} : text ∈ (r * optional (char '\n')).matches' ↔
      text ∈ r.matches' ∨ ∃ front ∈ r.matches', text = front ++ ['\n'] := by
  rw [mem_mul_iff]
  constructor
  · intro h
    obtain ⟨front, hfront, rest, hrest, rfl⟩ := h
    rcases hrest with hrest | hrest
    · obtain rfl : rest = [] := hrest
      rw [List.append_nil]
      exact .inl hfront
    · obtain rfl : rest = ['\n'] := hrest
      exact .inr ⟨front, hfront, rfl⟩
  · intro h
    rcases h with h | ⟨front, hfront, rfl⟩
    · exact ⟨text, h, [], nil_mem_optional, List.append_nil text⟩
    · exact ⟨front, hfront, ['\n'], mem_optional (singleton_mem_char '\n'), rfl⟩

/-- **What the expression of a selector admits.** -/
theorem mem_REGEX_iff {text : Text} :
    text ∈ REGEX.matches' ↔ pushAccepts text ∨ ∃ front, pushAccepts front ∧ text = front ++ ['\n'] := by
  have hselector : ∀ text : Text, text ∈ (SEGMENT * star (char '|' * SEGMENT)).matches' ↔ pushAccepts text := by
    intro text
    rw [mem_separated_iff, pushAccepts_iff]
    simp only [mem_SEGMENT_iff]
  rw [REGEX, mem_mul_newline_iff]
  simp only [hselector]

theorem validAddress_iff {text : Text} :
    validAddress text = true ↔ text = ['~'] ∨ ∃ path, text = '@' :: path ∧ validPath path = true := by
  refine ⟨validAddress_cases, fun h => ?_⟩
  rcases h with rfl | ⟨path, rfl, h⟩
  · decide
  · rw [validAddress, Bool.or_eq_true]
    right
    rw [show ('@' :: path : Text).dropPrefix? ['@'] = some path from
      @List.dropPrefix?_append_of_beq _ _ ['@'] ['@'] path (by simp)]
    exact h

/-- **What the expression of an address admits.** -/
theorem mem_ADDRESS_iff {text : Text} : text ∈ ADDRESS.matches' ↔
      validAddress text = true ∨ ∃ front, validAddress front = true ∧ text = front ++ ['\n'] := by
  have haddress : ∀ text : Text,
      text ∈ (char '~' + char '@' * (NAME * star (char '.' * NAME))).matches' ↔
        validAddress text = true := by
    intro text
    have hadd : text ∈ (char '~' + char '@' * (NAME * star (char '.' * NAME))).matches' ↔
        text = ['~'] ∨ text ∈ (char '@' * (NAME * star (char '.' * NAME))).matches' := Iff.rfl
    rw [hadd, mem_char_mul_iff, validAddress_iff]
    simp only [mem_names_iff, and_comm]
  rw [ADDRESS, mem_mul_newline_iff]
  simp only [haddress]

/-! ## 5. The two languages -/

theorem newline_not_mem_of_pushAccepts {text : Text} (h : pushAccepts text) : '\n' ∉ text := by
  obtain ⟨items, hne, hall, rfl⟩ := pushAccepts_iff.mp h
  obtain ⟨item, items, rfl⟩ := List.exists_cons_of_ne_nil hne
  have hsegment : ∀ i ∈ item :: items, '\n' ∉ i :=
    fun i hi => not_mem_of_validSegment (hall i hi) (by decide) (by decide)
  rw [intercalate_cons, List.mem_append, List.mem_flatten]
  intro hmem
  rcases hmem with hmem | ⟨part, hpart, hmem⟩
  · exact hsegment item List.mem_cons_self hmem
  · obtain ⟨i, hi, rfl⟩ := List.mem_map.mp hpart
    rcases List.mem_cons.mp hmem with hmem | hmem
    · exact absurd hmem (by decide)
    · exact hsegment i (List.mem_cons_of_mem item hi) hmem

theorem newline_not_mem_of_validAddress {text : Text} (h : validAddress text = true) : '\n' ∉ text := by
  rcases validAddress_cases h with rfl | ⟨path, rfl, hp⟩
  · decide
  · have hpath : '\n' ∉ path := not_mem_of_validPath hp (by decide)
    simp [hpath]

/-- A kind of text without newlines, and that kind with a newline allowed behind it, agree on a text unless
    it is one with that newline. -/
theorem agree_iff {accepts : Text → Prop} (hnewline : ∀ text, accepts text → '\n' ∉ text) (text : Text) :
    (accepts text ↔ (accepts text ∨ ∃ front, accepts front ∧ text = front ++ ['\n'])) ↔
      ¬ ∃ front, accepts front ∧ text = front ++ ['\n'] := by
  constructor
  · intro h hsome
    obtain ⟨front, hfront, rfl⟩ := hsome
    have haccepts : accepts (front ++ ['\n']) := h.mpr (.inr ⟨front, hfront, rfl⟩)
    exact hnewline _ haccepts (by simp)
  · intro h
    exact ⟨.inl, fun hor => hor.resolve_right h⟩

/-- **The grammars of the two languages agree on a text** exactly when it is not one that the Rust
    recogniser takes with a newline behind it: the Python expressions end in `$`. -/
theorem grammars_coincide_iff (selector : Option Database.AddressSelector) (text : Text) :
    (((∃ pushed, Database.AddressSelector.push selector text = .ok pushed) ↔ text ∈ REGEX.matches') ↔
        ¬ ∃ front, (∃ pushed, Database.AddressSelector.push selector front = .ok pushed) ∧
          text = front ++ ['\n']) ∧
      ((validAddress text = true ↔ text ∈ ADDRESS.matches') ↔
        ¬ ∃ front, validAddress front = true ∧ text = front ++ ['\n']) := by
  simp only [push_isOk_iff, mem_REGEX_iff, mem_ADDRESS_iff]
  exact ⟨agree_iff (fun _ => newline_not_mem_of_pushAccepts) text,
    agree_iff (fun _ => newline_not_mem_of_validAddress) text⟩

/-- The engine's address with a newline. -/
theorem engine_newline_differs :
    ¬ ((∃ pushed, Database.AddressSelector.push none ['~', '\n'] = .ok pushed) ↔
        ['~', '\n'] ∈ REGEX.matches') ∧
      ¬ (validAddress ['~', '\n'] = true ↔ ['~', '\n'] ∈ ADDRESS.matches') := by
  constructor
  · rw [push_isOk_iff, mem_REGEX_iff]
    intro h
    exact absurd (h.mpr (.inr ⟨['~'], by decide, rfl⟩)) (by decide)
  · rw [mem_ADDRESS_iff]
    intro h
    exact absurd (h.mpr (.inr ⟨['~'], by decide, rfl⟩)) (by decide)

end Ceres.Address
