/-
  File:      Ceres/Library/Numeral.lean
  Subject:   DECIMAL NUMERALS as exact rationals.

  The text of a floating-point number: a sign, digits with a point among or beside them, an exponent; or
  one of the words for infinity and for no number.

  * `readNumeral` -- what a text stands for, if it is a numeral;
  * `finite_characters`, `numeral_characters` -- the characters of one;
  * `readNumeral_digits`, `readNumeral_point` -- the numerals that are written out;
  * `roundHalfEven` -- the nearest integer, ties to the even one, and `abs_roundHalfEven_sub_le`;
  * `toDouble`, `toSingle` -- the nearest float of the two precisions;
  * `trim` -- a text without the whitespace around it;
  * `readFloat` -- a numeral as Python reads it.
-/
import Mathlib.Data.Bool.AllAny
import Mathlib.Data.Int.Log
import Mathlib.Data.List.DropRight
import Mathlib.Data.List.TakeWhile
import Mathlib.Tactic
import Ceres.Library.Wildcard

namespace Ceres.Library

/-! ## 1. Reading -/

inductive Numeral where
  | finite (value : ℚ)
  | infinite (negative : Bool)
  | nan
deriving DecidableEq

/-- `n` times ten to the `exponent`. -/
def scaled (n : Nat) : Int → ℚ
  | .ofNat exponent => n * 10 ^ exponent
  | .negSucc exponent => n / 10 ^ (exponent + 1)

/-- Whether there is a minus, and what follows the sign. -/
def takeSign : Text → Bool × Text
  | [] => (false, [])
  | c :: text => if c = '-' then (true, text) else if c = '+' then (false, text) else (false, c :: text)

/-- The exponent, which must end the numeral. -/
def readExponent : Text → Option Int
  | [] => some 0
  | c :: text =>
    if c = 'e' ∨ c = 'E' then
      let (negative, digits) := takeSign text
      if digits ≠ [] ∧ digits.all Char.isDigit then
        some (if negative then -(Nat.ofDigitChars 10 digits 0 : Int) else Nat.ofDigitChars 10 digits 0)
      else none
    else none

/-- The digits behind a point, and what follows them. -/
def takeFraction : Text → Text × Text
  | [] => ([], [])
  | c :: text => if c = '.' then (text.takeWhile Char.isDigit, text.dropWhile Char.isDigit) else ([], c :: text)

/-- A numeral without a sign. -/
def readDecimal (text : Text) : Option ℚ :=
  let whole := text.takeWhile Char.isDigit
  let (fraction, rest) := takeFraction (text.dropWhile Char.isDigit)
  if whole = [] ∧ fraction = [] then none
  else
    (readExponent rest).map fun exponent =>
      scaled (Nat.ofDigitChars 10 (whole ++ fraction) 0) (exponent - fraction.length)

def INFINITY_WORDS : List Text := ["inf".toList, "infinity".toList]

def readNumeral (text : Text) : Option Numeral :=
  let (negative, body) := takeSign text
  match readDecimal body with
  | some value => some (.finite (if negative then -value else value))
  | none =>
    let word := body.map Char.toLower
    if INFINITY_WORDS.contains word then some (.infinite negative)
    else if word = "nan".toList then some .nan
    else none

/-! ## 2. Its characters -/

/-- A character of a finite numeral. -/
def numeralChar (c : Char) : Bool := c.isDigit || ['+', '-', '.', 'e', 'E'].contains c

/-- A letter of a word, in lower case. -/
def wordChars : List Char := ['i', 'n', 'f', 't', 'y', 'a']

variable {c : Char}

theorem digit_numeralChar (h : c.isDigit = true) : numeralChar c = true := by
  unfold numeralChar
  rw [h]
  rfl

variable {text : Text}

theorem takeSign_subset (p : Char → Prop) (hminus : p '-') (hplus : p '+')
    (h : ∀ c ∈ (takeSign text).2, p c) : ∀ c ∈ text, p c := by
  cases text with
  | nil => exact h
  | cons d text =>
    by_cases hd : d = '-'
    · simp only [takeSign, if_pos hd] at h
      exact List.forall_mem_cons.mpr ⟨hd ▸ hminus, h⟩
    · by_cases hd' : d = '+'
      · simp only [takeSign, if_neg hd, if_pos hd'] at h
        exact List.forall_mem_cons.mpr ⟨hd' ▸ hplus, h⟩
      · simp only [takeSign, if_neg hd, if_neg hd'] at h
        exact h

theorem readExponent_characters {exponent : Int} (h : readExponent text = some exponent) :
    ∀ c ∈ text, numeralChar c = true := by
  cases text with
  | nil => exact fun c hc => absurd hc List.not_mem_nil
  | cons d text =>
    unfold readExponent at h
    by_cases hd : d = 'e' ∨ d = 'E'
    · simp only [if_pos hd] at h
      by_cases hdigits : (takeSign text).2 ≠ [] ∧ (takeSign text).2.all Char.isDigit = true
      · refine List.forall_mem_cons.mpr ⟨?_, takeSign_subset (numeralChar · = true) rfl rfl fun c hc => ?_⟩
        · obtain rfl | rfl := hd <;> rfl
        · exact digit_numeralChar (List.all_eq_true.mp hdigits.2 c hc)
      · simp only [if_neg hdigits] at h
        exact absurd h (Option.some_ne_none exponent).symm
    · simp only [if_neg hd] at h
      exact absurd h (Option.some_ne_none exponent).symm

theorem takeWhile_digits (text : Text) : ∀ c ∈ text.takeWhile Char.isDigit, numeralChar c = true :=
  fun _ hc => digit_numeralChar (List.mem_takeWhile_imp hc)

theorem takeFraction_characters (h : ∀ c ∈ (takeFraction text).2, numeralChar c = true) :
    ∀ c ∈ text, numeralChar c = true := by
  cases text with
  | nil => exact h
  | cons d text =>
    by_cases hd : d = '.'
    · simp only [takeFraction, if_pos hd] at h
      refine List.forall_mem_cons.mpr ⟨hd ▸ rfl, ?_⟩
      rw [← List.takeWhile_append_dropWhile (p := Char.isDigit) (l := text)]
      exact List.forall_mem_append.mpr ⟨takeWhile_digits text, h⟩
    · simp only [takeFraction, if_neg hd] at h
      exact h

theorem readDecimal_characters {value : ℚ} (h : readDecimal text = some value) :
    ∀ c ∈ text, numeralChar c = true := by
  unfold readDecimal at h
  by_cases hnone : text.takeWhile Char.isDigit = [] ∧ (takeFraction (text.dropWhile Char.isDigit)).1 = []
  · simp only [if_pos hnone] at h
    exact absurd h (Option.some_ne_none value).symm
  · simp only [if_neg hnone] at h
    obtain ⟨exponent, hexponent, _⟩ := Option.map_eq_some_iff.mp h
    rw [← List.takeWhile_append_dropWhile (p := Char.isDigit) (l := text)]
    exact List.forall_mem_append.mpr
      ⟨takeWhile_digits text, takeFraction_characters (readExponent_characters hexponent)⟩

theorem readNumeral_of_decimal {value : ℚ} (h : readDecimal (takeSign text).2 = some value) :
    readNumeral text = some (.finite (if (takeSign text).1 then -value else value)) := by
  unfold readNumeral
  simp only [h]

theorem readNumeral_cases {n : Numeral} (h : readNumeral text = some n) :
    (∃ value, readDecimal (takeSign text).2 = some value ∧
        n = .finite (if (takeSign text).1 then -value else value)) ∨
      ((∀ value, n ≠ .finite value) ∧ (takeSign text).2 ≠ [] ∧
        ∀ c ∈ (takeSign text).2, c.toLower ∈ wordChars) := by
  unfold readNumeral at h
  cases hdecimal : readDecimal (takeSign text).2 with
  | some value =>
    simp only [hdecimal] at h
    exact .inl ⟨value, rfl, (Option.some.inj h).symm⟩
  | none =>
    simp only [hdecimal] at h
    have hword : ∀ word : Text, word ≠ [] → (takeSign text).2.map Char.toLower = word →
        (∀ c ∈ word, c ∈ wordChars) → (takeSign text).2 ≠ [] ∧ ∀ c ∈ (takeSign text).2, c.toLower ∈ wordChars := by
      intro word hne heq hall
      refine ⟨fun hnil => hne (by rw [← heq, hnil]; rfl), fun c hc => hall _ ?_⟩
      rw [← heq]
      exact List.mem_map_of_mem hc
    by_cases hinfinite : INFINITY_WORDS.contains ((takeSign text).2.map Char.toLower) = true
    · simp only [if_pos hinfinite] at h
      refine .inr ⟨fun value hvalue => ?_, ?_⟩
      · exact absurd ((Option.some.inj h).trans hvalue) (by simp)
      · have hmem := List.contains_iff_mem.mp hinfinite
        obtain heq | heq : (takeSign text).2.map Char.toLower = ['i', 'n', 'f'] ∨
            (takeSign text).2.map Char.toLower = ['i', 'n', 'f', 'i', 'n', 'i', 't', 'y'] := by
          simpa [INFINITY_WORDS] using hmem
        · exact hword _ (List.cons_ne_nil _ _) heq (List.all_iff_forall_prop.mp (by decide))
        · exact hword _ (List.cons_ne_nil _ _) heq (List.all_iff_forall_prop.mp (by decide))
    · simp only [if_neg hinfinite] at h
      by_cases hnan : (takeSign text).2.map Char.toLower = "nan".toList
      · simp only [if_pos hnan] at h
        refine .inr ⟨fun value hvalue => ?_, ?_⟩
        · exact absurd ((Option.some.inj h).trans hvalue) (by simp)
        · have heq : (takeSign text).2.map Char.toLower = ['n', 'a', 'n'] := hnan
          exact hword _ (List.cons_ne_nil _ _) heq (List.all_iff_forall_prop.mp (by decide))
      · simp only [if_neg hnan] at h
        exact absurd h (Option.some_ne_none n).symm

theorem finite_characters {value : ℚ} (h : readNumeral text = some (.finite value)) :
    ∀ c ∈ text, numeralChar c = true := by
  obtain ⟨_, hdecimal, _⟩ | ⟨hnot, _⟩ := readNumeral_cases h
  · exact takeSign_subset (numeralChar · = true) rfl rfl (readDecimal_characters hdecimal)
  · exact absurd rfl (hnot value)

theorem numeral_characters {n : Numeral} (h : readNumeral text = some n) :
    ∀ c ∈ text, numeralChar c = true ∨ c.toLower ∈ wordChars := by
  obtain ⟨_, hdecimal, _⟩ | ⟨_, _, hword⟩ := readNumeral_cases h
  · exact fun c hc => .inl
      (takeSign_subset (numeralChar · = true) rfl rfl (readDecimal_characters hdecimal) c hc)
  · exact takeSign_subset (fun c => numeralChar c = true ∨ c.toLower ∈ wordChars) (.inl rfl) (.inl rfl)
      fun c hc => .inr (hword c hc)

theorem readNumeral_nil : readNumeral [] = none := by decide

/-! ## 3. Numerals written out -/

theorem takeSign_of_digit (hc : c ≠ '-' ∧ c ≠ '+') (text : Text) : takeSign (c :: text) = (false, c :: text) := by
  simp only [takeSign, if_neg hc.1, if_neg hc.2]

theorem digit_ne_sign (h : c.isDigit = true) : c ≠ '-' ∧ c ≠ '+' := by
  constructor
  · rintro rfl
    exact absurd h (by decide)
  · rintro rfl
    exact absurd h (by decide)

theorem takeDigits {digits rest : Text} (hdigits : ∀ c ∈ digits, c.isDigit = true)
    (hrest : ∀ c ∈ rest.head?, c.isDigit = false) :
    (digits ++ rest).takeWhile Char.isDigit = digits ∧ (digits ++ rest).dropWhile Char.isDigit = rest := by
  induction digits with
  | nil =>
    cases rest with
    | nil => exact ⟨rfl, rfl⟩
    | cons c rest =>
      have hc := hrest c rfl
      exact ⟨List.takeWhile_cons_of_neg (by rw [hc]; exact Bool.false_ne_true),
        List.dropWhile_cons_of_neg (by rw [hc]; exact Bool.false_ne_true)⟩
  | cons d digits ih =>
    have hd : d.isDigit = true := hdigits d List.mem_cons_self
    obtain ⟨htake, hdrop⟩ := ih fun c hc => hdigits c (List.mem_cons_of_mem _ hc)
    rw [List.cons_append, List.takeWhile_cons_of_pos hd, List.dropWhile_cons_of_pos hd, htake, hdrop]
    exact ⟨rfl, rfl⟩

theorem not_mem_head_nil : ∀ c ∈ ([] : Text).head?, c.isDigit = false := fun c hc => absurd hc (Option.not_mem_none c)

theorem takeSign_digits {digits : Text} (hdigits : ∀ c ∈ digits, c.isDigit = true) (hne : digits ≠ [])
    (rest : Text) : takeSign (digits ++ rest) = (false, digits ++ rest) := by
  cases digits with
  | nil => exact absurd rfl hne
  | cons d digits => exact takeSign_of_digit (digit_ne_sign (hdigits d List.mem_cons_self)) _

theorem readNumeral_digits {digits : Text} (hdigits : ∀ c ∈ digits, c.isDigit = true) (hne : digits ≠ []) :
    readNumeral digits = some (.finite (Nat.ofDigitChars 10 digits 0 : Nat)) := by
  have hsign : takeSign digits = (false, digits) := by
    simpa using takeSign_digits hdigits hne []
  obtain ⟨htake, hdrop⟩ := takeDigits hdigits not_mem_head_nil
  rw [List.append_nil] at htake hdrop
  have hread : readDecimal digits = some ((Nat.ofDigitChars 10 digits 0 : Nat) : ℚ) := by
    unfold readDecimal
    rw [htake, hdrop]
    simp only [takeFraction, hne, false_and, if_false, readExponent, Option.map_some, List.append_nil,
      List.length_nil, Nat.cast_zero, sub_zero]
    show some ((Nat.ofDigitChars 10 digits 0 : ℚ) * 10 ^ 0) = _
    rw [pow_zero, mul_one]
  have hdecimal : readDecimal (takeSign digits).2 = some ((Nat.ofDigitChars 10 digits 0 : Nat) : ℚ) := by
    rw [hsign]
    exact hread
  rw [readNumeral_of_decimal hdecimal, hsign]
  rfl

theorem scaled_neg (n k : Nat) : scaled n (0 - (k : Int)) = n / 10 ^ k := by
  cases k with
  | zero =>
    show (n : ℚ) * 10 ^ 0 = n / 10 ^ 0
    rw [pow_zero, mul_one, div_one]
  | succ k =>
    have hneg : (0 - ((k + 1 : Nat) : Int)) = Int.negSucc k := by
      rw [zero_sub]
      rfl
    rw [hneg]
    rfl

theorem readNumeral_point {whole fraction : Text} (hwhole : ∀ c ∈ whole, c.isDigit = true)
    (hfraction : ∀ c ∈ fraction, c.isDigit = true) (hne : whole ≠ []) : readNumeral (whole ++ '.' :: fraction) =
      some (.finite (((Nat.ofDigitChars 10 (whole ++ fraction) 0 : Nat) : ℚ) / 10 ^ fraction.length)) := by
  have hsign := takeSign_digits hwhole hne ('.' :: fraction)
  have hpoint : ∀ c ∈ ('.' :: fraction).head?, c.isDigit = false := by
    intro c hc
    obtain rfl := Option.some.inj hc
    decide
  obtain ⟨htake, hdrop⟩ := takeDigits hwhole hpoint
  obtain ⟨htake', hdrop'⟩ := takeDigits hfraction not_mem_head_nil
  rw [List.append_nil] at htake' hdrop'
  have hread : readDecimal (whole ++ '.' :: fraction) =
      some (((Nat.ofDigitChars 10 (whole ++ fraction) 0 : Nat) : ℚ) / 10 ^ fraction.length) := by
    unfold readDecimal
    rw [htake, hdrop]
    simp only [takeFraction, if_true, htake', hdrop', hne, false_and, if_false, readExponent, Option.map_some]
    exact congrArg some (scaled_neg _ _)
  have hdecimal : readDecimal (takeSign (whole ++ '.' :: fraction)).2 =
      some (((Nat.ofDigitChars 10 (whole ++ fraction) 0 : Nat) : ℚ) / 10 ^ fraction.length) := by
    rw [hsign]
    exact hread
  rw [readNumeral_of_decimal hdecimal, hsign]
  rfl

theorem ofDigitChars_append_div (whole fraction : Text) :
    ((Nat.ofDigitChars 10 (whole ++ fraction) 0 : Nat) : ℚ) / 10 ^ fraction.length =
      Nat.ofDigitChars 10 whole 0 + Nat.ofDigitChars 10 fraction 0 / 10 ^ fraction.length := by
  rw [Nat.ofDigitChars_append, Nat.ofDigitChars_eq_ofDigitChars_zero]
  push_cast
  rw [add_div, mul_comm, mul_div_assoc, div_self (by positivity), mul_one]

/-- A fraction is worth as much without the zeros at its end. -/
theorem ofDigitChars_without_zeros (digits : Text) :
    ((Nat.ofDigitChars 10 (digits.rdropWhile (· == '0')) 0 : Nat) : ℚ) / 10 ^ (digits.rdropWhile (· == '0')).length =
      Nat.ofDigitChars 10 digits 0 / 10 ^ digits.length := by
  have hzeros : digits.rtakeWhile (· == '0') = List.replicate (digits.rtakeWhile (· == '0')).length '0' :=
    List.eq_replicate_of_mem fun c hc => eq_of_beq (List.mem_rtakeWhile_imp (p := (· == '0')) hc)
  have hsplit : digits.rdropWhile (· == '0') ++ digits.rtakeWhile (· == '0') = digits :=
    List.rdropWhile_append_rtakeWhile
  have hvalue := ofDigitChars_append_div (digits.rdropWhile (· == '0')) (digits.rtakeWhile (· == '0'))
  have hnothing : Nat.ofDigitChars 10 (digits.rtakeWhile (· == '0')) 0 = 0 := by
    rw [hzeros, Nat.ofDigitChars_replicate_zero, Nat.mul_zero]
  have hlength : digits.length = (digits.rtakeWhile (· == '0')).length + (digits.rdropWhile (· == '0')).length := by
    rw [← List.length_append.trans (Nat.add_comm _ _), hsplit]
  rw [hsplit, hnothing, Nat.cast_zero, zero_div, add_zero] at hvalue
  rw [← hvalue, hlength, pow_add, div_div]

theorem rdropWhile_append_cons {p : Char → Bool} (hc : p c = false) (front back : Text) :
    (front ++ c :: back).rdropWhile p = front ++ c :: back.rdropWhile p := by
  induction back using List.reverseRecOn with
  | nil => exact List.rdropWhile_concat_neg p front c (by rw [hc]; exact Bool.false_ne_true)
  | append_singleton back d ih =>
    have hsplit : front ++ c :: (back ++ [d]) = (front ++ c :: back) ++ [d] := by simp
    rw [hsplit]
    by_cases hd : p d = true
    · rw [List.rdropWhile_concat_pos _ _ _ hd, List.rdropWhile_concat_pos _ _ _ hd, ih]
    · rw [List.rdropWhile_concat_neg _ _ _ hd, List.rdropWhile_concat_neg _ _ _ hd, hsplit]

/-- Zeros in front are worth nothing. -/
theorem ofDigitChars_leftpad (width : Nat) (digits : Text) :
    Nat.ofDigitChars 10 (List.leftpad width '0' digits) 0 = Nat.ofDigitChars 10 digits 0 := by
  unfold List.leftpad
  rw [Nat.ofDigitChars_append, Nat.ofDigitChars_replicate_zero, Nat.mul_zero]

/-! ## 4. Rounding -/

/-- The nearest integer, and of two the even one. -/
def roundHalfEven (q : ℚ) : Int :=
  let below := ⌊q⌋
  if q - below < 1 / 2 then below
  else if 1 / 2 < q - below then below + 1
  else if below % 2 = 0 then below
  else below + 1

theorem roundHalfEven_intCast (n : Int) : roundHalfEven n = n := by
  unfold roundHalfEven
  simp

theorem abs_roundHalfEven_sub_le (q : ℚ) : |(roundHalfEven q : ℚ) - q| ≤ 1 / 2 := by
  have hlow : (⌊q⌋ : ℚ) ≤ q := Int.floor_le q
  have hhigh : q < ⌊q⌋ + 1 := Int.lt_floor_add_one q
  unfold roundHalfEven
  simp only
  split
  · rw [abs_le]
    constructor <;> linarith
  · split
    · rw [abs_le]
      push_cast
      constructor <;> linarith
    · split
      · rw [abs_le]
        constructor <;> linarith
      · rw [abs_le]
        push_cast
        constructor <;> linarith

theorem roundHalfEven_nonneg {q : ℚ} (h : 0 ≤ q) : 0 ≤ roundHalfEven q := by
  have hfloor : 0 ≤ ⌊q⌋ := Int.floor_nonneg.mpr h
  unfold roundHalfEven
  simp only
  split
  · exact hfloor
  · split
    · omega
    · split <;> omega

/-! ## 5. Floats in binary -/

/-- The nearest number with as many significant bits, the exponent of its first bit in the range. -/
def toBinary (bits : Nat) (lowest highest : Int) (q : ℚ) : Numeral :=
  let exponent := max (Int.log 2 |q|) lowest - (bits - 1)
  let rounded : ℚ := roundHalfEven (q / 2 ^ exponent) * 2 ^ exponent
  if 2 ^ (highest + 1) ≤ |rounded| then .infinite (decide (q < 0)) else .finite rounded

/-- A double. -/
def toDouble (q : ℚ) : Numeral := toBinary 53 (-1022) 1023 q

/-- A float of single precision. -/
def toSingle : Numeral → Numeral
  | .finite q => toBinary 24 (-126) 127 q
  | other => other

/-! ## 6. Whitespace around a numeral -/

/-- The whitespace of Unicode. -/
def isWhitespace (c : Char) : Bool :=
  (9 ≤ c.toNat && c.toNat ≤ 13) || (0x2000 ≤ c.toNat && c.toNat ≤ 0x200a) ||
    [0x20, 0x85, 0xa0, 0x1680, 0x2028, 0x2029, 0x202f, 0x205f, 0x3000].contains c.toNat

def trim (text : Text) : Text := (text.dropWhile isWhitespace).rdropWhile isWhitespace

theorem whitespace_or_mem_trim (hc : c ∈ text) : isWhitespace c = true ∨ c ∈ trim text := by
  have hend : ∀ {text : Text}, c ∈ text → isWhitespace c = true ∨ c ∈ text.dropWhile isWhitespace := by
    intro text hc
    rw [← List.takeWhile_append_dropWhile (p := isWhitespace) (l := text)] at hc
    exact (List.mem_append.mp hc).imp_left List.mem_takeWhile_imp
  refine (hend hc).elim .inl fun hc => ?_
  unfold trim List.rdropWhile
  exact (hend (List.mem_reverse.mpr hc)).imp_right List.mem_reverse.mpr

theorem numeralChar_not_whitespace (h : numeralChar c = true) : isWhitespace c = false := by
  unfold numeralChar at h
  obtain hdigit | hother := (Bool.or_eq_true _ _).mp h
  · have hrange := Char.isDigit_iff_toNat.mp hdigit
    have htable : ∀ n < 58, 48 ≤ n → isWhitespace (Char.ofNat n) = false := by decide
    have hc := htable c.toNat (Nat.lt_succ_of_le hrange.2) hrange.1
    rwa [Char.ofNat_toNat] at hc
  · obtain rfl | rfl | rfl | rfl | rfl : c = '+' ∨ c = '-' ∨ c = '.' ∨ c = 'e' ∨ c = 'E' := by simpa using hother
    all_goals decide

theorem trim_of_not_whitespace (h : ∀ c ∈ text, isWhitespace c = false) : trim text = text := by
  have hstart : text.dropWhile isWhitespace = text := by
    refine List.dropWhile_eq_self_iff.mpr fun hl hspace => ?_
    exact Bool.false_ne_true ((h _ (List.getElem_mem hl)).symm.trans hspace)
  unfold trim
  rw [hstart]
  refine List.rdropWhile_eq_self_iff.mpr fun hl hspace => ?_
  exact Bool.false_ne_true ((h _ (List.getLast_mem hl)).symm.trans hspace)

/-! ## 7. Numerals with underscores, in any decimal digits -/

/-- The value of the decimal digits of Unicode; those of ASCII are the only ones there. -/
structure DecimalDigits where
  digit : Char → Option Nat
  lt_ten : ∀ c n, digit c = some n → n < 10
  ascii : ∀ c, c.toNat < 128 → digit c = if c.isDigit then some (c.toNat - 48) else none

/-- Digits and whitespace of any script in ASCII, and a mark for what else is not. -/
def toAscii (digits : DecimalDigits) (c : Char) : Char :=
  if c.toNat < 128 then c
  else if isWhitespace c then ' '
  else
    match digits.digit c with
    | some n => Nat.digitChar n
    | none => '?'

/-- Without underscores, each of which must stand between two digits; `last` is the character before. -/
def dropUnderscores (last : Char) : Text → Option Text
  | [] => if last = '_' then none else some []
  | c :: text =>
    if c = '_' then if last.isDigit then dropUnderscores c text else none
    else if last = '_' ∧ c.isDigit = false then none
    else (dropUnderscores c text).map (c :: ·)

/-- Python's `float` of a text. -/
def readFloat (digits : DecimalDigits) (text : Text) : Option Numeral :=
  (dropUnderscores ' ' (trim (text.map (toAscii digits)))).bind readNumeral

theorem toAscii_ascii (digits : DecimalDigits) (h : c.toNat < 128) : toAscii digits c = c := by
  unfold toAscii
  rw [if_pos h]

theorem dropUnderscores_of_not_mem : ∀ {text : Text} {last : Char}, last ≠ '_' → '_' ∉ text →
    dropUnderscores last text = some text
  | [], last, hlast, _ => by rw [dropUnderscores, if_neg hlast]
  | c :: text, last, hlast, hnot => by
      have hc : c ≠ '_' := fun h => hnot (h ▸ List.mem_cons_self)
      rw [dropUnderscores, if_neg hc, if_neg fun h => hlast h.1,
        dropUnderscores_of_not_mem hc fun h => hnot (List.mem_cons_of_mem _ h)]
      rfl

theorem numeralChar_ascii (h : numeralChar c = true) : c.toNat < 128 := by
  unfold numeralChar at h
  obtain hdigit | hother := (Bool.or_eq_true _ _).mp h
  · exact Nat.lt_of_le_of_lt (Char.isDigit_iff_toNat.mp hdigit).2 (by decide)
  · obtain rfl | rfl | rfl | rfl | rfl : c = '+' ∨ c = '-' ∨ c = '.' ∨ c = 'e' ∨ c = 'E' := by simpa using hother
    all_goals decide

theorem readFloat_of_numeral (digits : DecimalDigits) (h : ∀ c ∈ text, numeralChar c = true) :
    readFloat digits text = readNumeral text := by
  have hascii : text.map (toAscii digits) = text := by
    refine (List.map_congr_left fun c hc => ?_).trans (List.map_id text)
    exact toAscii_ascii digits (numeralChar_ascii (h c hc))
  have htrim : trim text = text := trim_of_not_whitespace fun c hc => numeralChar_not_whitespace (h c hc)
  have hunderscore : '_' ∉ text := fun hmem => absurd (h '_' hmem) (by decide)
  unfold readFloat
  rw [hascii, htrim, dropUnderscores_of_not_mem (by decide) hunderscore, Option.bind_some]

end Ceres.Library
