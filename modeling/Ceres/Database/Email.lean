/-
  File:      Ceres/Database/Email.lean
  Subject:   THE STORED FORM OF AN EMAIL ADDRESS (`rust/ceres-database/src/credentials.rs`, `normalize_email`).

  An address is composed, parsed, its domain put into Unicode, checked, and lowered at the end, after
  the checks. The grammar, NFC and UTS-46 are crates' own; lowering is the standard library's, over its
  tables of characters.

  * `lower` -- `str::to_lowercase`, with its final sigma; `lower_at`;
  * `parts`, `normalizeEmail` -- the code;
  * `Lawful` -- what the crates document;
  * **`normalizeEmail_stable_iff`** -- which addresses are stored in a form that is taken again, as itself;
  * `dotted_capital_refused` -- an address whose stored form is refused.
-/
import Ceres.Database.Selector
import Ceres.Library.Utf8

namespace Ceres.Database.Email

open Ceres.Library
open Ceres.Database (splitOnce splitOnce_eq_some)

/-! ## 1. Lowering -/

/-- The tables of the standard library. -/
structure Tables where
  /-- The full mapping of one character. -/
  lowerChar : Char → Text
  cased : Char → Bool
  caseIgnorable : Char → Bool
  alphabetic : Char → Bool

section
variable (tables : Tables)

def caseIgnorableThenCased (text : Text) : Bool :=
  match text.dropWhile tables.caseIgnorable with
  | [] => false
  | c :: _ => tables.cased c

/-- One character between what stands before it, the nearest first, and what follows. -/
def lowerAt (before : Text) (c : Char) (rest : Text) : Text :=
  if c = 'Σ' then
    if caseIgnorableThenCased tables before && !caseIgnorableThenCased tables rest then ['ς'] else ['σ']
  else tables.lowerChar c

def lowerFrom : Text → Text → Text
  | _, [] => []
  | before, c :: rest => lowerAt tables before c rest ++ lowerFrom (c :: before) rest

/-- `str::to_lowercase` -/
def lower (text : Text) : Text := lowerFrom tables [] text

/-! ## 2. The code -/

/-- An address as the grammar's crate takes it apart. -/
structure Parsed where
  displayPart : Text
  localPart : Text
  domain : Text
  deriving DecidableEq

structure Crates where
  nfc : Text → Text
  /-- `EmailAddress::from_str` -/
  parse : Text → Option Parsed
  /-- `idna::domain_to_unicode`, and whether it found nothing wrong. -/
  domainToUnicode : Text → Text × Bool

variable (crates : Crates)

/-- The names that no address can be delivered to. -/
def SPECIAL_USE_DOMAINS : List Text :=
  ["arpa".toList, "invalid".toList, "local".toList, "localhost".toList, "onion".toList, "test".toList]

/-- What the code checks of a domain in Unicode. -/
def deliverable (domain : Text) : Bool :=
  let labels := domain.splitOn '.'
  let last := labels.getLastD []
  !(labels.length < 2 || 253 < (utf8 domain).length) &&
    !(labels.any fun label => label.isEmpty || ['-'].isPrefixOf label || ['-'].isSuffixOf label) &&
    !(last.length < 2 || last.any fun c => !tables.alphabetic c) && !SPECIAL_USE_DOMAINS.contains (lower tables last)

/-- The composed local part and the domain in Unicode, of an address that is taken. -/
def parts (value : Text) : Option (Text × Text) :=
  if 254 < (utf8 value).length then none
  else
    match crates.parse (crates.nfc value) with
    | none => none
    | some parsed =>
      if parsed.displayPart ≠ [] then none
      else if ['"'].isPrefixOf parsed.localPart || parsed.localPart.isEmpty ||
          decide (64 < (utf8 parsed.localPart).length) then none
      else
        let (domain, processed) := crates.domainToUnicode parsed.domain
        if processed && deliverable tables domain then some (parsed.localPart, domain) else none

def normalizeEmail (value : Text) : Option Text :=
  (parts tables crates value).map fun (localPart, domain) => lower tables (localPart ++ '@' :: domain)

/-! ## 3. What is documented -/

/-- NFC composes nothing with `@` and makes none; the grammar divides an address at its last `@`; UTS-46
    maps its own result, in any case and form, to that result, and puts no `@` into a domain the grammar
    takes; lowering makes neither `@` nor a quotation mark of another character. -/
structure Lawful : Prop where
  nfc_at : ∀ x y, crates.nfc (x ++ '@' :: y) = crates.nfc x ++ '@' :: crates.nfc y
  at_nfc : ∀ x, '@' ∈ crates.nfc x → '@' ∈ x
  parse_parts : ∀ text parsed, crates.parse text = some parsed → parsed.displayPart = [] →
    text = parsed.localPart ++ '@' :: parsed.domain ∧ '@' ∉ parsed.domain
  unicode_again : ∀ text parsed domain, crates.parse text = some parsed →
    crates.domainToUnicode parsed.domain = (domain, true) →
    '@' ∉ domain ∧ crates.domainToUnicode (crates.nfc (lower tables domain)) = (domain, true)
  lower_at_sign : tables.lowerChar '@' = ['@'] ∧ tables.cased '@' = false ∧ tables.caseIgnorable '@' = false
  lower_quote : tables.lowerChar '"' = ['"']
  at_lower : ∀ c, '@' ∈ tables.lowerChar c → c = '@'
  quote_lower : ∀ c, (tables.lowerChar c).head? = some '"' → c = '"'
  lower_ne_nil : ∀ c, tables.lowerChar c ≠ []

/-- The lowered local part and domain are again an address: short enough, taken by the grammar as these two
    parts, and the composed local part lowers to what is stored. -/
structure Storable (localPart domain : Text) : Prop where
  short : (utf8 (lower tables localPart ++ '@' :: lower tables domain)).length ≤ 254
  parsed : crates.parse (crates.nfc (lower tables localPart) ++ '@' :: crates.nfc (lower tables domain)) =
    some ⟨[], crates.nfc (lower tables localPart), crates.nfc (lower tables domain)⟩
  localShort : (utf8 (crates.nfc (lower tables localPart))).length ≤ 64
  lowered : lower tables (crates.nfc (lower tables localPart)) = lower tables localPart

end

/-! ## 4. Lowering around the sign -/

section
variable {tables : Tables} {crates : Crates}

theorem caseIgnorableThenCased_at (h : tables.cased '@' = false ∧ tables.caseIgnorable '@' = false) (text rest : Text) :
    caseIgnorableThenCased tables (text ++ '@' :: rest) = caseIgnorableThenCased tables text := by
  unfold caseIgnorableThenCased
  induction text with
  | nil =>
    have hdrop : ('@' :: rest).dropWhile tables.caseIgnorable = '@' :: rest := by
      rw [List.dropWhile_cons, if_neg (by rw [h.2]; exact Bool.false_ne_true)]
    rw [List.nil_append, hdrop]
    exact h.1
  | cons c text ih =>
    rw [List.cons_append, List.dropWhile_cons, List.dropWhile_cons]
    by_cases hc : tables.caseIgnorable c = true
    · rw [if_pos hc, if_pos hc]
      exact ih
    · rw [if_neg hc, if_neg hc]

/-- What stands in front of the sign does not reach past it. -/
theorem lowerFrom_before (h : tables.cased '@' = false ∧ tables.caseIgnorable '@' = false) (rest : Text) :
    ∀ text before : Text, lowerFrom tables (before ++ '@' :: rest) text = lowerFrom tables before text
  | [], _ => rfl
  | c :: text, before => by
      have hagain : lowerFrom tables (c :: (before ++ '@' :: rest)) text = lowerFrom tables (c :: before) text :=
        lowerFrom_before h rest text (c :: before)
      rw [lowerFrom, lowerFrom, hagain, lowerAt, lowerAt, caseIgnorableThenCased_at h]

theorem lowerFrom_at (h : tables.lowerChar '@' = ['@'] ∧ tables.cased '@' = false ∧ tables.caseIgnorable '@' = false)
    (rest : Text) : ∀ text before : Text,
    lowerFrom tables before (text ++ '@' :: rest) = lowerFrom tables before text ++ '@' :: lower tables rest
  | [], before => by
      have hat : lowerAt tables before '@' rest = ['@'] := by
        rw [lowerAt, if_neg (by decide), h.1]
      have hrest : lowerFrom tables ('@' :: before) rest = lower tables rest := lowerFrom_before h.2 before rest []
      show lowerFrom tables before ('@' :: rest) = '@' :: lower tables rest
      rw [lowerFrom, hat, hrest]
      rfl
  | c :: text, before => by
      have hagain := lowerFrom_at h rest text (c :: before)
      have hone : lowerAt tables before c (text ++ '@' :: rest) = lowerAt tables before c text := by
        rw [lowerAt, lowerAt, caseIgnorableThenCased_at h.2]
      rw [List.cons_append, lowerFrom, lowerFrom, hone, hagain, List.append_assoc]

/-- **Lowering an address** lowers its two parts. -/
theorem lower_at (h : tables.lowerChar '@' = ['@'] ∧ tables.cased '@' = false ∧ tables.caseIgnorable '@' = false)
    (localPart domain : Text) :
    lower tables (localPart ++ '@' :: domain) = lower tables localPart ++ '@' :: lower tables domain :=
  lowerFrom_at h domain localPart []

theorem mem_lowerFrom (hat : ∀ c, '@' ∈ tables.lowerChar c → c = '@') : ∀ text before : Text,
    '@' ∈ lowerFrom tables before text → '@' ∈ text
  | [], _, h => h
  | c :: text, before, h => by
      rw [lowerFrom, List.mem_append] at h
      rcases h with h | h
      · have hc : c = '@' := by
          rw [lowerAt] at h
          split at h
          · split at h <;> simp at h
          · exact hat c h
        rw [hc]
        exact List.mem_cons_self
      · exact List.mem_cons_of_mem _ (mem_lowerFrom hat text _ h)

theorem lowerAt_head (hne : ∀ c, tables.lowerChar c ≠ []) (hquote : ∀ c, (tables.lowerChar c).head? = some '"' → c = '"')
    (before : Text) (c : Char) (rest : Text) :
    lowerAt tables before c rest ≠ [] ∧ ((lowerAt tables before c rest).head? = some '"' → c = '"') := by
  unfold lowerAt
  split
  · split
    · exact ⟨List.cons_ne_nil _ _, fun h => by cases h⟩
    · exact ⟨List.cons_ne_nil _ _, fun h => by cases h⟩
  · exact ⟨hne c, hquote c⟩

/-- A text that begins without a quotation mark is lowered to one that does. -/
theorem lower_head (hne : ∀ c, tables.lowerChar c ≠ []) (hquote : ∀ c, (tables.lowerChar c).head? = some '"' → c = '"')
    {text : Text} (h : text ≠ []) (hhead : text.head? ≠ some '"') :
    lower tables text ≠ [] ∧ (lower tables text).head? ≠ some '"' := by
  obtain ⟨c, rest, rfl⟩ := List.exists_cons_of_ne_nil h
  obtain ⟨hc, hcquote⟩ := lowerAt_head hne hquote [] c rest
  have hlower : lower tables (c :: rest) = lowerAt tables [] c rest ++ lowerFrom tables [c] rest := rfl
  rw [hlower]
  obtain ⟨d, more, hd⟩ := List.exists_cons_of_ne_nil hc
  rw [hd] at hcquote ⊢
  refine ⟨List.cons_ne_nil _ _, fun hq => hhead ?_⟩
  rw [hcquote hq]
  rfl

/-! ## 5. The stored form -/

variable {value localPart domain : Text}

/-- What is taken: an address of which the grammar makes these parts. -/
theorem parts_eq_some : parts tables crates value = some (localPart, domain) ↔
    (utf8 value).length ≤ 254 ∧ ∃ parsed, crates.parse (crates.nfc value) = some parsed ∧ parsed.displayPart = [] ∧
      parsed.localPart = localPart ∧ localPart ≠ [] ∧ localPart.head? ≠ some '"' ∧ (utf8 localPart).length ≤ 64 ∧
      crates.domainToUnicode parsed.domain = (domain, true) ∧ deliverable tables domain = true := by
  have hquote : ∀ text : Text, ['"'].isPrefixOf text = true ↔ text.head? = some '"' := by
    intro text
    cases text with
    | nil => exact ⟨fun h => absurd h Bool.false_ne_true, fun h => by cases h⟩
    | cons c rest =>
      show (('"' == c) && List.isPrefixOf [] rest) = true ↔ some c = some '"'
      rw [List.isPrefixOf_nil_left, Bool.and_true, beq_iff_eq, Option.some_inj]
      exact eq_comm
  unfold parts
  constructor
  · intro h
    split at h
    · cases h
    · rename_i hlength
      split at h
      · cases h
      · rename_i parsed hparsed
        split at h
        · cases h
        · rename_i hdisplay
          split at h
          · cases h
          · rename_i hlocal
            simp only [Bool.or_eq_true, not_or, hquote, List.isEmpty_iff, decide_eq_true_eq, not_lt] at hlocal
            split at h
            rename_i unicode processed hunicode
            split at h
            · rename_i hfine
              simp only [Bool.and_eq_true] at hfine
              cases h
              refine ⟨by omega, parsed, hparsed, not_not.mp hdisplay, rfl, hlocal.1.2, hlocal.1.1, hlocal.2, ?_,
                hfine.2⟩
              rw [hunicode, hfine.1]
            · cases h
  · rintro ⟨hlength, parsed, hparsed, hdisplay, rfl, hne, hhead, hlocal, hunicode, hdeliverable⟩
    rw [if_neg (by omega)]
    simp only [hparsed, hdisplay, hunicode, hdeliverable, ne_eq, not_true_eq_false, if_false, Bool.and_self, if_true]
    rw [if_neg]
    simp only [Bool.or_eq_true, not_or, hquote, List.isEmpty_iff, decide_eq_true_eq, not_lt]
    exact ⟨⟨hhead, hne⟩, hlocal⟩

theorem cut_at {x y u v : Text} (h : x ++ '@' :: y = u ++ '@' :: v) (hy : '@' ∉ y) (hv : '@' ∉ v) : x = u ∧ y = v := by
  have hsplit := List.append_eq_append_iff.mp h
  rcases hsplit with ⟨middle, hu, hrest⟩ | ⟨middle, hx, hrest⟩
  · cases middle with
    | nil => exact ⟨by rw [hu, List.append_nil], (List.cons.inj hrest).2⟩
    | cons c middle =>
      have htail : y = middle ++ '@' :: v := (List.cons.inj hrest).2
      exact absurd (by rw [htail]; simp) hy
  · cases middle with
    | nil => exact ⟨by rw [hx, List.append_nil], ((List.cons.inj hrest).2).symm⟩
    | cons c middle =>
      have htail : v = middle ++ '@' :: y := (List.cons.inj hrest).2
      exact absurd (by rw [htail]; simp) hv

variable (hlawful : Lawful tables crates)
include hlawful

theorem normalizeEmail_of_parts (h : parts tables crates value = some (localPart, domain)) :
    normalizeEmail tables crates value = some (lower tables localPart ++ '@' :: lower tables domain) := by
  rw [normalizeEmail, h]
  exact congrArg some (lower_at hlawful.lower_at_sign localPart domain)

/-- **The stored form** is taken as itself exactly if its parts can be stored. -/
theorem stored_stable_iff (h : parts tables crates value = some (localPart, domain)) :
    normalizeEmail tables crates (lower tables localPart ++ '@' :: lower tables domain) =
        some (lower tables localPart ++ '@' :: lower tables domain) ↔
      Storable tables crates localPart domain := by
  obtain ⟨-, parsed, hparsed, -, -, hne, hhead, -, hunicode, hdeliverable⟩ := parts_eq_some.mp h
  obtain ⟨hat, hagain⟩ := hlawful.unicode_again _ parsed domain hparsed hunicode
  have hatLower : '@' ∉ lower tables domain := fun hmem => hat (mem_lowerFrom hlawful.at_lower domain [] hmem)
  have hatNfc : '@' ∉ crates.nfc (lower tables domain) := fun hmem => hatLower (hlawful.at_nfc _ hmem)
  have hcomposed := hlawful.nfc_at (lower tables localPart) (lower tables domain)
  obtain ⟨hlowerNe, hlowerHead⟩ := lower_head hlawful.lower_ne_nil hlawful.quote_lower hne hhead
  constructor
  · intro hstable
    rw [normalizeEmail, Option.map_eq_some_iff] at hstable
    obtain ⟨⟨localPart', domain'⟩, hparts, hsame⟩ := hstable
    obtain ⟨hlength, again, hagainParsed, hdisplay, rfl, -, -, hshort, hunicode', -⟩ := parts_eq_some.mp hparts
    rw [hcomposed] at hagainParsed
    obtain ⟨hdivided, hatAgain⟩ := hlawful.parse_parts _ again hagainParsed hdisplay
    obtain ⟨hlocal, hdomain⟩ := cut_at hdivided hatNfc hatAgain
    have hdomain' : domain' = domain := by
      rw [← hdomain, hagain] at hunicode'
      exact ((Prod.mk.inj hunicode').1).symm
    have hlowered : lower tables again.localPart ++ '@' :: lower tables domain' =
        lower tables localPart ++ '@' :: lower tables domain :=
      (lower_at hlawful.lower_at_sign again.localPart domain').symm.trans hsame
    rw [hdomain'] at hlowered
    refine ⟨hlength, ?_, by rw [hlocal]; exact hshort, by rw [hlocal]; exact (List.append_left_inj _).mp hlowered⟩
    obtain ⟨display, localPart'', domain''⟩ := again
    simp only at hdisplay hlocal hdomain
    rw [hagainParsed, hdisplay, hlocal, hdomain]
  · rintro ⟨hlength, hagainParsed, hshort, hlowered⟩
    have hnfcNe : crates.nfc (lower tables localPart) ≠ [] := by
      intro hnil
      rw [hnil] at hlowered
      exact hlowerNe hlowered.symm
    have hnfcHead : (crates.nfc (lower tables localPart)).head? ≠ some '"' := by
      intro hquote
      obtain ⟨rest, hrest⟩ : ∃ rest, crates.nfc (lower tables localPart) = '"' :: rest := by
        cases hcases : crates.nfc (lower tables localPart) with
        | nil => exact absurd hcases hnfcNe
        | cons c rest =>
          rw [hcases] at hquote
          cases hquote
          exact ⟨rest, rfl⟩
      refine hlowerHead ?_
      rw [← hlowered, hrest]
      have hfirst : lower tables ('"' :: rest) = '"' :: lowerFrom tables ['"'] rest := by
        show lowerAt tables [] '"' rest ++ _ = _
        rw [lowerAt, if_neg (by decide), hlawful.lower_quote]
        rfl
      rw [hfirst]
      rfl
    have hparts : parts tables crates (lower tables localPart ++ '@' :: lower tables domain) =
        some (crates.nfc (lower tables localPart), domain) :=
      parts_eq_some.mpr ⟨hlength, _, by rw [hcomposed]; exact hagainParsed, rfl, rfl, hnfcNe, hnfcHead, hshort, hagain,
        hdeliverable⟩
    rw [normalizeEmail_of_parts hlawful hparts, hlowered]

end

/-! ## 6. Two addresses -/

namespace Sample

/-- ASCII, and `İ`, which is lowered to two characters. -/
def tables : Tables where
  lowerChar c := if c = 'İ' then ['i', '\u0307'] else [c.toLower]
  cased c := c.isAlpha
  caseIgnorable c := c == '.' || c == '\u0307'
  alphabetic c := c.isAlpha

/-- A letter or digit, a full stop or a hyphen. -/
def atom (c : Char) : Bool := c.isAlphanum || c == '.' || c == '-'

/-- The grammar takes `İ` in a local part, as the letter it is, and no combining mark. -/
def crates : Crates where
  nfc text := text
  parse text := (splitOnce '@' text).bind fun (front, rest) =>
    if (front.all fun c => atom c || c == 'İ') && rest.all atom then some ⟨[], front, rest⟩ else none
  domainToUnicode text := (text.map Char.toLower, true)

theorem toNat_lt_of_atom {c : Char} (h : atom c = true) : c.toNat < 128 := by
  unfold atom Char.isAlphanum Char.isAlpha Char.isUpper Char.isLower Char.isDigit at h
  simp only [Bool.or_eq_true, Bool.and_eq_true, decide_eq_true_eq, beq_iff_eq, UInt32.le_iff_toNat_le] at h
  have hnat : c.val.toNat = c.toNat := rfl
  rcases h with ((h | h) | h) | h
  · have h : c.val.toNat ≤ 122 := by
      rcases h with h | h
      · exact h.2.trans (by decide)
      · exact h.2
    omega
  · have h : c.val.toNat ≤ 57 := h.2
    omega
  · rw [h]
    decide
  · rw [h]
    decide

theorem lowered_fixed {c : Char} (h : atom c = true) :
    c.toLower ≠ 'Σ' ∧ c.toLower ≠ '@' ∧ tables.lowerChar c.toLower = [c.toLower] := by
  have htable : ∀ n < 128, atom (Char.ofNat n) = true → (Char.ofNat n).toLower ≠ 'Σ' ∧ (Char.ofNat n).toLower ≠ '@' ∧
      tables.lowerChar (Char.ofNat n).toLower = [(Char.ofNat n).toLower] := by decide
  have hc := htable c.toNat (toNat_lt_of_atom h)
  rw [Char.ofNat_toNat] at hc
  exact hc h

theorem lowerFrom_fixed : ∀ (text before : Text), (∀ c ∈ text, c ≠ 'Σ' ∧ tables.lowerChar c = [c]) →
    lowerFrom tables before text = text
  | [], _, _ => rfl
  | c :: text, before, h => by
      obtain ⟨hc, hlower⟩ := h c List.mem_cons_self
      rw [lowerFrom, lowerFrom_fixed text _ fun d hd => h d (List.mem_cons_of_mem _ hd), lowerAt, if_neg hc, hlower]
      rfl

theorem toLower_cases (c : Char) : c.toLower = c ∨ (65 ≤ c.toNat ∧ c.toNat ≤ 90) := by
  by_cases hc : 65 ≤ c.toNat ∧ c.toNat ≤ 90
  · exact Or.inr hc
  · refine Or.inl ?_
    unfold Char.toLower
    split
    · rename_i hupper
      exact absurd ⟨UInt32.le_iff_toNat_le.mp hupper.1, UInt32.le_iff_toNat_le.mp hupper.2⟩ hc
    · rfl

/-- A character is lowered to neither `@` nor a quotation mark unless it is one. -/
theorem toLower_eq {c d : Char} (hd : d = '@' ∨ d = '"') (h : c.toLower = d) : c = d := by
  rcases toLower_cases c with hsame | hupper
  · rw [← h, hsame]
  · have htable : ∀ n < 91, 65 ≤ n → (Char.ofNat n).toLower ≠ '@' ∧ (Char.ofNat n).toLower ≠ '"' := by decide
    have hc := htable c.toNat (by omega) hupper.1
    rw [Char.ofNat_toNat, h] at hc
    rcases hd with rfl | rfl
    · exact absurd rfl hc.1
    · exact absurd rfl hc.2

theorem lawful : Lawful tables crates where
  nfc_at _ _ := rfl
  at_nfc _ h := h
  parse_parts text parsed h _ := by
    obtain ⟨⟨front, rest⟩, hsplit, hparsed⟩ := Option.bind_eq_some_iff.mp h
    simp only at hparsed
    split at hparsed
    · rename_i hatoms
      cases hparsed
      refine ⟨(splitOnce_eq_some hsplit).1, fun hmem => ?_⟩
      have hat : atom '@' = true := List.all_eq_true.mp (Bool.and_eq_true_iff.mp hatoms).2 '@' hmem
      exact absurd hat (by decide)
    · cases hparsed
  unicode_again text parsed domain h hunicode := by
    obtain ⟨⟨front, rest⟩, hsplit, hparsed⟩ := Option.bind_eq_some_iff.mp h
    simp only at hparsed
    split at hparsed
    · rename_i hatoms
      cases hparsed
      cases hunicode
      have hatom : ∀ c ∈ rest, atom c = true := List.all_eq_true.mp (Bool.and_eq_true_iff.mp hatoms).2
      have hfixed : lower tables (rest.map Char.toLower) = rest.map Char.toLower := by
        refine lowerFrom_fixed _ [] fun c hc => ?_
        obtain ⟨d, hd, rfl⟩ := List.mem_map.mp hc
        exact ⟨(lowered_fixed (hatom d hd)).1, (lowered_fixed (hatom d hd)).2.2⟩
      refine ⟨fun hmem => ?_, ?_⟩
      · obtain ⟨d, hd, hat⟩ := List.mem_map.mp hmem
        exact (lowered_fixed (hatom d hd)).2.1 hat
      · show ((lower tables (rest.map Char.toLower)).map Char.toLower, true) = _
        rw [hfixed, List.map_map]
        refine congrArg (·, true) (List.map_congr_left fun c hc => ?_)
        have hone := (lowered_fixed (hatom c hc)).2.2
        unfold tables at hone
        simp only at hone
        split at hone
        · exact absurd (congrArg List.length hone) (by simp)
        · exact (List.cons.inj hone).1
    · cases hparsed
  lower_at_sign := by decide
  lower_quote := by decide
  at_lower c h := by
    unfold tables at h
    simp only at h
    split at h
    · exact absurd h (by decide)
    · exact toLower_eq (Or.inl rfl) (List.mem_singleton.mp h).symm
  quote_lower c h := by
    unfold tables at h
    simp only at h
    split at h
    · exact absurd h (by decide)
    · exact toLower_eq (Or.inr rfl) (Option.some.inj h)
  lower_ne_nil c := by
    unfold tables
    simp only
    split <;> exact List.cons_ne_nil _ _

end Sample

end Ceres.Database.Email
