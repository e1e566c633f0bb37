/-
  File:      Ceres/Library/Bytes.lean
  Subject:   FIXED-WIDTH WORDS AS BYTES, AND READERS OVER A BUFFER.

  * `toLe` / `ofLe` -- a word and its little-endian bytes, `Endian.write` / `Endian.read` in
    either order, with the round trip `Endian.read_write`;
  * `Reader` -- a function from a buffer and an offset to a value and the offset after it;
    `Reads r bytes v` says that `r` finds `v` wherever `bytes` stand. The rules `Reads.pure`,
    `Reads.bind` and `Reads.skip` compose it along a layout.
-/
import Mathlib.Data.Nat.ModEq
import Mathlib.Tactic

namespace Ceres.Library

/-! ## 1. Words -/

/-- The `width` little-endian bytes of `n`; what does not fit is dropped. -/
def toLe : Nat → Nat → List UInt8
  | 0, _ => []
  | width + 1, n => UInt8.ofNat n :: toLe width (n / 256)

/-- The word whose little-endian bytes these are. -/
def ofLe : List UInt8 → Nat
  | [] => 0
  | b :: rest => b.toNat + 256 * ofLe rest

@[simp] theorem toLe_length : ∀ (width n : Nat), (toLe width n).length = width
  | 0, _ => rfl
  | width + 1, n => by rw [toLe, List.length_cons, toLe_length width]

theorem ofLe_toLe : ∀ (width n : Nat), ofLe (toLe width n) = n % 256 ^ width
  | 0, n => by rw [toLe, ofLe, pow_zero, Nat.mod_one]
  | width + 1, n => by
      have hb : (UInt8.ofNat n).toNat = n % 256 := UInt8.toNat_ofNat'
      rw [toLe, ofLe, ofLe_toLe width, hb, pow_succ', Nat.mod_mul]

theorem ofLe_lt : ∀ bytes : List UInt8, ofLe bytes < 256 ^ bytes.length
  | [] => by simp [ofLe]
  | b :: rest => by
      have hb := b.toNat_lt
      have ih := ofLe_lt rest
      rw [ofLe, List.length_cons, pow_succ]
      omega

theorem ofLe_append : ∀ xs ys : List UInt8, ofLe (xs ++ ys) = ofLe xs + 256 ^ xs.length * ofLe ys
  | [], ys => by simp [ofLe]
  | b :: xs, ys => by
      rw [List.cons_append, ofLe, ofLe_append xs ys, ofLe, List.length_cons, pow_succ']
      ring

theorem toLe_add : ∀ width more n : Nat, toLe (width + more) n = toLe width n ++ toLe more (n / 256 ^ width)
  | 0, more, n => by rw [Nat.zero_add, toLe, List.nil_append, pow_zero, Nat.div_one]
  | width + 1, more, n => by
      rw [Nat.add_right_comm, toLe, toLe_add width more, toLe, List.cons_append, Nat.div_div_eq_div_mul, ← pow_succ']

/-- A byte order. -/
inductive Endian where
  | little
  | big
  deriving DecidableEq, Repr

namespace Endian

/-- The `width` bytes of `n` in this order. -/
def write (endian : Endian) (width n : Nat) : List UInt8 :=
  match endian with
  | little => toLe width n
  | big => (toLe width n).reverse

/-- The word in the first `width` bytes, read in this order. -/
def read (endian : Endian) (width : Nat) (data : List UInt8) : Nat :=
  match endian with
  | little => ofLe (data.take width)
  | big => ofLe (data.take width).reverse

@[simp] theorem write_length (endian : Endian) (width n : Nat) : (endian.write width n).length = width := by
  cases endian <;> simp [write]

theorem read_lt (endian : Endian) (width : Nat) (data : List UInt8) : endian.read width data < 256 ^ width := by
  have hlen : (data.take width).length ≤ width := List.length_take_le ..
  have hpow : 256 ^ (data.take width).length ≤ 256 ^ width := Nat.pow_le_pow_right (by norm_num) hlen
  cases endian with
  | little => exact lt_of_lt_of_le (ofLe_lt _) hpow
  | big =>
    have h := ofLe_lt (data.take width).reverse
    rw [List.length_reverse] at h
    exact lt_of_lt_of_le h hpow

/-- **A word is read back as it was written**, whatever follows it. -/
theorem read_write (endian : Endian) (width n : Nat) (rest : List UInt8) :
    endian.read width (endian.write width n ++ rest) = n % 256 ^ width := by
  have htake : (endian.write width n ++ rest).take width = endian.write width n := by
    rw [List.take_append_of_le_length (by rw [write_length])]
    exact List.take_of_length_le (by rw [write_length])
  cases endian with
  | little =>
    rw [read, htake]
    exact ofLe_toLe width n
  | big =>
    rw [read, htake, write, List.reverse_reverse]
    exact ofLe_toLe width n

/-- A word read across two big-endian words: the first, and the upper bytes of the second. -/
theorem read_across (width more n m : Nat) (rest : List UInt8) :
    big.read (width + more) (big.write width n ++ (big.write (more + width) m ++ rest)) =
      n % 256 ^ width * 256 ^ more + m / 256 ^ width % 256 ^ more := by
  have hsplit : big.write (more + width) m = big.write more (m / 256 ^ width) ++ big.write width m := by
    rw [write, write, write, Nat.add_comm, toLe_add, List.reverse_append]
  have hfront : (big.write width n ++ (big.write (more + width) m ++ rest)).take (width + more) =
      big.write width n ++ big.write more (m / 256 ^ width) := by
    rw [hsplit, List.append_assoc, ← List.append_assoc]
    exact List.take_left' (by rw [List.length_append, write_length, write_length])
  rw [read, hfront, List.reverse_append, write, write, List.reverse_reverse, List.reverse_reverse, ofLe_append,
    ofLe_toLe, ofLe_toLe, toLe_length]
  ring

theorem read_write_bitVec (endian : Endian) {width bits : Nat} (hw : 256 ^ width = 2 ^ bits)
    (x : BitVec bits) (rest : List UInt8) :
    BitVec.ofNat bits (endian.read width (endian.write width x.toNat ++ rest)) = x := by
  rw [read_write, hw, Nat.mod_eq_of_lt x.isLt]
  exact BitVec.eq_of_toNat_eq (by rw [BitVec.toNat_ofNat, Nat.mod_eq_of_lt x.isLt])

end Endian

/-! ## 2. Readers -/

variable {ε α β : Type}

/-- Read a value at an offset of a buffer, and say where the next one starts. -/
abbrev Reader (ε α : Type) : Type := List UInt8 → Nat → Except ε (α × Nat)

/-- `r` reads `v` from `bytes`, whatever stands before and after them, and ends behind them. -/
def Reads (r : Reader ε α) (bytes : List UInt8) (v : α) : Prop :=
  ∀ before after : List UInt8,
    r (before ++ bytes ++ after) before.length = .ok (v, before.length + bytes.length)

@[simp] theorem ok_bind (a : α) (f : α → Except ε β) : (Except.ok a >>= f) = f a := rfl

namespace Reads

theorem pure (v : α) : Reads (fun _ offset => (.ok (v, offset) : Except ε _)) [] v :=
  fun _ _ => rfl

variable {r : Reader ε α} {xs : List UInt8}

theorem map {a : α} (f : α → β) (h : Reads r xs a) :
    Reads (fun data offset => (r data offset).map fun p => (f p.1, p.2)) xs (f a) := by
  intro before after
  simp only [h before after]
  rfl

theorem bind {k : α → Reader ε β} {xs ys : List UInt8} {a : α} {b : β} (hr : Reads r xs a)
    (hk : Reads (k a) ys b) :
    Reads (fun data offset => r data offset >>= fun p => k p.1 data p.2) (xs ++ ys) b := by
  intro before after
  have h₁ := hr before (ys ++ after)
  have h₂ := hk (before ++ xs) after
  simp only [List.append_assoc, List.length_append] at h₁ h₂ ⊢
  rw [h₁]
  show k a _ _ = _
  rw [h₂, Nat.add_assoc]

/-- A bounds check for the bytes themselves passes. -/
theorem guarded {a : α} (error : Nat → Nat → ε) (h : Reads r xs a) : Reads (fun data offset =>
      if data.length < offset + xs.length then .error (error (offset + xs.length) data.length)
      else r data offset) xs a := by
  intro before after
  have hlen : ¬ (before ++ xs ++ after).length < before.length + xs.length := by
    simp only [List.length_append]
    omega
  simp only [if_neg hlen]
  exact h before after

/-- A reader that starts `n` bytes on, in front of any `n` bytes. -/
theorem skip {a : α} (h : Reads r xs a) (pad : List UInt8) :
    Reads (fun data offset => r data (offset + pad.length)) (pad ++ xs) a := by
  intro before after
  have h₁ := h (before ++ pad) after
  simp only [List.append_assoc, List.length_append] at h₁ ⊢
  rw [h₁, Nat.add_assoc]

/-- A reader that ends `n` bytes further, behind any `n` bytes. -/
theorem trail {a : α} (h : Reads r xs a) (pad : List UInt8) :
    Reads (fun data offset => (r data offset).map fun p => (p.1, p.2 + pad.length)) (xs ++ pad) a := by
  intro before after
  have h₁ := h before (pad ++ after)
  simp only [List.append_assoc, List.length_append] at h₁ ⊢
  rw [h₁, ← Nat.add_assoc]
  rfl

end Reads

end Ceres.Library
