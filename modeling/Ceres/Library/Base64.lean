/-
  File:      Ceres/Library/Base64.lean
  Subject:   BASE-64, WITH A READER THAT PASSES OVER WHAT IT DOES NOT KNOW.

  Three bytes are written as four digits, a shorter last group with padding. The reader takes
  digits four at a time; a character that is no digit is skipped, and padding ends the text only
  where it completes a group.

  * `encode` -- the writer, a recursion over groups of three bytes;
  * `decodeFrom` -- the reader, by the place in its group, what is left of the last digit, and the
    padding read since;
  * `decodeFrom_digit` -- what one digit does;
  * `decodeFrom_stray` -- one digit too many in front: no text is read as the bytes it was written for.
-/
import Mathlib.Tactic

namespace Ceres.Library.Base64

/-! ## 1. Digits -/

/-- `=`. -/
def pad : UInt8 := 61

/-- The character of a six-bit value. -/
def digit (value : Nat) : UInt8 :=
  if value < 26 then UInt8.ofNat (value + 65)
  else if value < 52 then UInt8.ofNat (value + 71)
  else if value < 62 then UInt8.ofNat (value - 4)
  else if value = 62 then 43
  else 47

/-- The six-bit value of a character, if it is a digit. -/
def valueOf (character : UInt8) : Option Nat :=
  if 65 ≤ character.toNat ∧ character.toNat ≤ 90 then some (character.toNat - 65)
  else if 97 ≤ character.toNat ∧ character.toNat ≤ 122 then some (character.toNat - 71)
  else if 48 ≤ character.toNat ∧ character.toNat ≤ 57 then some (character.toNat + 4)
  else if character.toNat = 43 then some 62
  else if character.toNat = 47 then some 63
  else none

theorem valueOf_digit {value : Nat} (h : value < 64) : valueOf (digit value) = some value ∧ digit value ≠ pad := by
  have htable : ∀ value < 64, valueOf (digit value) = some value ∧ digit value ≠ pad := by decide
  exact htable value h

/-- A digit is printed as it is: a character that is neither a quote nor a backslash. -/
theorem digit_plain {value : Nat} (h : value < 64) :
    32 ≤ (digit value).toNat ∧ (digit value).toNat < 127 ∧ digit value ≠ 39 ∧ digit value ≠ 92 := by
  have htable : ∀ value < 64, 32 ≤ (digit value).toNat ∧ (digit value).toNat < 127 ∧ digit value ≠ 39 ∧
      digit value ≠ 92 := by decide
  exact htable value h

/-! ## 2. Writing -/

/-- The digits of a byte string, three bytes at a time. -/
def encode : List UInt8 → List UInt8
  | [] => []
  | [a] => [digit (a.toNat / 4), digit (a.toNat % 4 * 16), pad, pad]
  | [a, b] => [digit (a.toNat / 4), digit (a.toNat % 4 * 16 + b.toNat / 16), digit (b.toNat % 16 * 4), pad]
  | a :: b :: c :: rest =>
    digit (a.toNat / 4) :: digit (a.toNat % 4 * 16 + b.toNat / 16) ::
      digit (b.toNat % 16 * 4 + c.toNat / 64) :: digit (c.toNat % 64) :: encode rest

theorem encode_mem {character : UInt8} : ∀ {bytes : List UInt8}, character ∈ encode bytes →
    (∃ value < 64, character = digit value) ∨ character = pad
  | [], h => by simp [encode] at h
  | [a], h => by
      have ha := a.toNat_lt
      simp only [encode, List.mem_cons, List.not_mem_nil, or_false] at h
      rcases h with rfl | rfl | rfl | rfl
      · exact Or.inl ⟨_, by omega, rfl⟩
      · exact Or.inl ⟨_, by omega, rfl⟩
      · exact Or.inr rfl
      · exact Or.inr rfl
  | [a, b], h => by
      have ha := a.toNat_lt
      have hb := b.toNat_lt
      simp only [encode, List.mem_cons, List.not_mem_nil, or_false] at h
      rcases h with rfl | rfl | rfl | rfl
      · exact Or.inl ⟨_, by omega, rfl⟩
      · exact Or.inl ⟨_, by omega, rfl⟩
      · exact Or.inl ⟨_, by omega, rfl⟩
      · exact Or.inr rfl
  | a :: b :: c :: rest, h => by
      have ha := a.toNat_lt
      have hb := b.toNat_lt
      have hc := c.toNat_lt
      simp only [encode, List.mem_cons] at h
      rcases h with rfl | rfl | rfl | rfl | h
      · exact Or.inl ⟨_, by omega, rfl⟩
      · exact Or.inl ⟨_, by omega, rfl⟩
      · exact Or.inl ⟨_, by omega, rfl⟩
      · exact Or.inl ⟨_, by omega, rfl⟩
      · exact encode_mem h

/-! ## 3. Reading -/

/-- What is wrong with a text that ends inside a group. -/
inductive Fault where
  | extraDigit
  | incorrectPadding
  deriving DecidableEq, Repr

/-- What one digit does: the byte it completes, if any, then the next place and the bits over. -/
def take (place left value : Nat) : Option UInt8 × Nat × Nat :=
  match place with
  | 0 => (none, 1, value)
  | 1 => (some (UInt8.ofNat (left * 4 + value / 16)), 2, value % 16)
  | 2 => (some (UInt8.ofNat (left * 16 + value / 4)), 3, value % 4)
  | _ => (some (UInt8.ofNat (left * 64 + value)), 0, 0)

/-- Read on from a place in a group, with `left` bits over and `pads` padding read there. -/
def decodeFrom : Nat → Nat → Nat → List UInt8 → Except Fault (List UInt8)
  | place, _, _, [] =>
    if place = 0 then .ok []
    else if place = 1 then .error .extraDigit
    else .error .incorrectPadding
  | place, left, pads, character :: rest =>
    if character = pad then
      if 2 ≤ place then
        -- padding that completes the group ends the text, whatever follows
        if 4 ≤ place + (pads + 1) then .ok [] else decodeFrom place left (pads + 1) rest
      else decodeFrom place left pads rest
    else
      match valueOf character with
      | none => decodeFrom place left pads rest
      | some value =>
        (decodeFrom (take place left value).2.1 (take place left value).2.2 0 rest).map
          ((take place left value).1.toList ++ ·)

def decode (text : List UInt8) : Except Fault (List UInt8) := decodeFrom 0 0 0 text

theorem decodeFrom_digit {value : Nat} (h : value < 64) (place left pads : Nat) (rest : List UInt8) :
    decodeFrom place left pads (digit value :: rest) =
      (decodeFrom (take place left value).2.1 (take place left value).2.2 0 rest).map
        ((take place left value).1.toList ++ ·) := by
  rw [decodeFrom, if_neg (valueOf_digit h).2, (valueOf_digit h).1]

theorem decodeFrom_skip {character : UInt8} (hpad : character ≠ pad) (h : valueOf character = none)
    (place left pads : Nat) (rest : List UInt8) :
    decodeFrom place left pads (character :: rest) = decodeFrom place left pads rest := by
  rw [decodeFrom, if_neg hpad, h]

theorem map_ok (f : List UInt8 → List UInt8) (bytes : List UInt8) :
    (Except.ok bytes : Except Fault (List UInt8)).map f = .ok (f bytes) := rfl

/-! ## 4. One digit too many -/

/-- What is read from the second place of a group: nothing where the bytes fill their groups, one byte
    too many elsewhere. -/
theorem decodeFrom_encode_length (tail : List UInt8) (htail : ∀ place left pads,
      decodeFrom place left pads tail = decodeFrom place left pads []) : ∀ (bytes : List UInt8) (left pads : Nat),
      (bytes.length % 3 = 0 ∧ decodeFrom 1 left pads (encode bytes ++ tail) = .error .extraDigit) ∨
      ∃ read, decodeFrom 1 left pads (encode bytes ++ tail) = .ok read ∧ read.length = bytes.length + 1
  | [], left, pads => Or.inl ⟨rfl, by
      have hnil : encode [] ++ tail = tail := rfl
      rw [hnil, htail]
      rfl⟩
  | [a], left, pads => by
      have ha := a.toNat_lt
      refine Or.inr ⟨[UInt8.ofNat (left * 4 + a.toNat / 4 / 16),
        UInt8.ofNat (a.toNat / 4 % 16 * 16 + a.toNat % 4 * 16 / 4)], ?_, rfl⟩
      have hend : decodeFrom 3 (a.toNat % 4 * 16 % 4) 0 (pad :: pad :: tail) = .ok [] := rfl
      simp only [encode, List.cons_append, List.nil_append]
      rw [decodeFrom_digit (by omega), decodeFrom_digit (by omega)]
      simp only [take, hend, map_ok]
      rfl
  | [a, b], left, pads => by
      have ha := a.toNat_lt
      have hb := b.toNat_lt
      refine Or.inr ⟨[UInt8.ofNat (left * 4 + a.toNat / 4 / 16),
        UInt8.ofNat (a.toNat / 4 % 16 * 16 + (a.toNat % 4 * 16 + b.toNat / 16) / 4),
        UInt8.ofNat ((a.toNat % 4 * 16 + b.toNat / 16) % 4 * 64 + b.toNat % 16 * 4)], ?_, rfl⟩
      -- the last group is full one digit early: its padding stands where a group begins
      have hend : decodeFrom 0 0 0 (pad :: tail) = .ok [] := by
        rw [decodeFrom, if_pos rfl, if_neg (by omega), htail]
        rfl
      simp only [encode, List.cons_append, List.nil_append]
      rw [decodeFrom_digit (by omega), decodeFrom_digit (by omega), decodeFrom_digit (by omega)]
      simp only [take, hend, map_ok]
      rfl
  | a :: b :: c :: rest, left, pads => by
      have ha := a.toNat_lt
      have hb := b.toNat_lt
      have hc := c.toNat_lt
      have hread : decodeFrom 1 left pads (encode (a :: b :: c :: rest) ++ tail) =
          (decodeFrom 1 (c.toNat % 64) 0 (encode rest ++ tail)).map
            ([UInt8.ofNat (left * 4 + a.toNat / 4 / 16),
              UInt8.ofNat (a.toNat / 4 % 16 * 16 + (a.toNat % 4 * 16 + b.toNat / 16) / 4),
              UInt8.ofNat ((a.toNat % 4 * 16 + b.toNat / 16) % 4 * 64 + (b.toNat % 16 * 4 + c.toNat / 64))] ++
              ·) := by
        simp only [encode, List.cons_append]
        rw [decodeFrom_digit (by omega), decodeFrom_digit (by omega), decodeFrom_digit (by omega),
          decodeFrom_digit (by omega)]
        simp only [take]
        cases decodeFrom 1 (c.toNat % 64) 0 (encode rest ++ tail) with
        | error fault => rfl
        | ok read => rfl
      rcases decodeFrom_encode_length tail htail rest (c.toNat % 64) 0 with ⟨hlength, herror⟩ | ⟨read, hok, hlength⟩
      · refine Or.inl ⟨?_, ?_⟩
        · simp only [List.length_cons]
          omega
        · rw [hread, herror]
          rfl
      · refine Or.inr ⟨_, by rw [hread, hok, map_ok], ?_⟩
        simp only [List.length_append, List.length_cons, List.length_nil, hlength]
        omega

/-- **With a stray digit in front no text is read as the bytes it was written for**: either it does not
    end with a group, or one byte more comes back. -/
theorem decodeFrom_stray {value : Nat} (hvalue : value < 64) (bytes : List UInt8) {before after : UInt8}
    (hbefore : before ≠ pad ∧ valueOf before = none) (hafter : after ≠ pad ∧ valueOf after = none) :
    decode (digit value :: before :: (encode bytes ++ [after])) ≠ .ok bytes := by
  have htail : ∀ place left pads,
      decodeFrom place left pads [after] = decodeFrom place left pads [] :=
    fun place left pads => decodeFrom_skip hafter.1 hafter.2 place left pads []
  have hread : decode (digit value :: before :: (encode bytes ++ [after])) =
      decodeFrom 1 value 0 (encode bytes ++ [after]) := by
    rw [decode, decodeFrom_digit hvalue]
    simp only [take]
    rw [decodeFrom_skip hbefore.1 hbefore.2]
    cases decodeFrom 1 value 0 (encode bytes ++ [after]) with
    | error fault => rfl
    | ok read => rfl
  rw [hread]
  rcases decodeFrom_encode_length [after] htail bytes value 0 with ⟨_, herror⟩ | ⟨read, hok, hlength⟩
  · rw [herror]
    intro h
    cases h
  · rw [hok]
    intro h
    have hsame : read = bytes := Except.ok.inj h
    rw [hsame] at hlength
    omega

end Ceres.Library.Base64
