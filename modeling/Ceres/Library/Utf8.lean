/-
  File:      Ceres/Library/Utf8.lean
  Subject:   ASCII BYTES IN UTF-8. A byte below 128 stands for its own character and for nothing else.

  * `utf8` -- the bytes of a text;
  * `utf8EncodeChar_ascii`, `eq_of_ascii_mem` -- which character an ASCII byte comes from;
  * **`ascii_ends_text`** -- a part of the bytes that ends in an ASCII byte is the bytes of a part of
    the text;
  * `count_utf8` -- ASCII bytes are as many as their characters.
-/
import Mathlib.Tactic
import Mathlib.Data.Char
import Ceres.Library.Wildcard

namespace Ceres.Library

/-- The UTF-8 bytes of a text. -/
def utf8 (text : Text) : List UInt8 := text.flatMap String.utf8EncodeChar

@[simp] theorem utf8_nil : utf8 [] = [] := rfl

@[simp] theorem utf8_cons (c : Char) (text : Text) :
    utf8 (c :: text) = String.utf8EncodeChar c ++ utf8 text := rfl

@[simp] theorem utf8_append (a b : Text) : utf8 (a ++ b) = utf8 a ++ utf8 b := by
  simp [utf8, List.flatMap_append]

theorem utf8EncodeChar_ascii {c : Char} (h : c.toNat < 128) :
    String.utf8EncodeChar c = [UInt8.ofNat c.toNat] := by
  have hval : c.val.toNat = c.toNat := rfl
  unfold String.utf8EncodeChar
  simp only
  rw [if_pos (by omega), hval]

/-- A byte of several for one character is not below 128. -/
theorem toNat_ofNat_add_ge {n k : Nat} (hn : n < 128) (hk : 128 ≤ k) (hsum : n + k < 256) :
    ¬ (UInt8.ofNat (n + k)).toNat < 128 := by
  rw [UInt8.toNat_ofNat']
  omega

/-- The character an ASCII byte comes from. -/
theorem eq_of_ascii_mem {c : Char} {b : UInt8} (h : b ∈ String.utf8EncodeChar c)
    (hb : b.toNat < 128) : c.toNat = b.toNat := by
  have hval : c.val.toNat = c.toNat := rfl
  unfold String.utf8EncodeChar at h
  simp only at h
  split_ifs at h with h1 h2 h3
  · rw [List.mem_singleton] at h
    rw [h, UInt8.toNat_ofNat', hval]
    omega
  · simp only [List.mem_cons, List.not_mem_nil, or_false] at h
    rcases h with rfl | rfl
    · exact absurd hb (toNat_ofNat_add_ge (by omega) (by omega) (by omega))
    · exact absurd hb (toNat_ofNat_add_ge (by omega) (by omega) (by omega))
  · simp only [List.mem_cons, List.not_mem_nil, or_false] at h
    rcases h with rfl | rfl | rfl
    · exact absurd hb (toNat_ofNat_add_ge (by omega) (by omega) (by omega))
    · exact absurd hb (toNat_ofNat_add_ge (by omega) (by omega) (by omega))
    · exact absurd hb (toNat_ofNat_add_ge (by omega) (by omega) (by omega))
  · simp only [List.mem_cons, List.not_mem_nil, or_false] at h
    rcases h with rfl | rfl | rfl | rfl
    · exact absurd hb (toNat_ofNat_add_ge (by omega) (by omega) (by omega))
    · exact absurd hb (toNat_ofNat_add_ge (by omega) (by omega) (by omega))
    · exact absurd hb (toNat_ofNat_add_ge (by omega) (by omega) (by omega))
    · exact absurd hb (toNat_ofNat_add_ge (by omega) (by omega) (by omega))

/-- A character whose bytes hold no ASCII byte but its own. -/
theorem utf8EncodeChar_of_ascii_mem {c : Char} {b : UInt8} (h : b ∈ String.utf8EncodeChar c)
    (hb : b.toNat < 128) : String.utf8EncodeChar c = [b] := by
  have hc := eq_of_ascii_mem h hb
  rw [utf8EncodeChar_ascii (hc ▸ hb), hc, UInt8.ofNat_toNat]

/-- **An ASCII byte ends a part of the text**, wherever it stands among the bytes. -/
theorem ascii_ends_text {b : UInt8} (hb : b.toNat < 128) : ∀ (text : Text) (head tail : List UInt8),
    utf8 text = head ++ b :: tail →
      ∃ before c after, text = before ++ c :: after ∧ c.toNat = b.toNat ∧ head = utf8 before ∧
        tail = utf8 after := by
  intro text
  induction text with
  | nil =>
    intro head tail h
    simp at h
  | cons c text ih =>
    intro head tail h
    rw [utf8_cons] at h
    rcases List.append_eq_append_iff.mp h with ⟨mid, hhead, htext⟩ | ⟨mid, hchar, htail⟩
    · obtain ⟨before, d, after, rfl, hd, hmid, rfl⟩ := ih mid tail htext
      exact ⟨c :: before, d, after, rfl, hd, by rw [hhead, hmid, utf8_cons], rfl⟩
    · -- the byte is one of this character's, or the first behind it
      cases mid with
      | nil =>
        have htext : utf8 text = [] ++ b :: tail := by simpa using htail.symm
        obtain ⟨before, d, after, rfl, hd, hmid, rfl⟩ := ih [] tail htext
        refine ⟨c :: before, d, after, rfl, hd, ?_, rfl⟩
        rw [utf8_cons, ← hmid, List.append_nil]
        simpa using hchar.symm
      | cons m mid =>
        obtain ⟨rfl, hmid⟩ := List.cons.inj htail
        have hmem : b ∈ String.utf8EncodeChar c := by rw [hchar]; simp
        have hone := utf8EncodeChar_of_ascii_mem hmem hb
        rw [hone] at hchar
        have hhead : head = [] := by
          cases head with
          | nil => rfl
          | cons x head => simp at hchar
        subst hhead
        have hnil : mid = [] := by simpa using hchar.symm
        subst hnil
        exact ⟨[], c, text, rfl, eq_of_ascii_mem hmem hb, rfl, by simpa using hmid⟩

/-- ASCII bytes are as many as their characters. -/
theorem count_utf8 {c : Char} (hc : c.toNat < 128) (text : Text) :
    (utf8 text).count (UInt8.ofNat c.toNat) = text.count c := by
  have hbyte : (UInt8.ofNat c.toNat).toNat = c.toNat := by
    rw [UInt8.toNat_ofNat']
    omega
  induction text with
  | nil => rfl
  | cons d text ih =>
    rw [utf8_cons, List.count_append, ih, List.count_cons, add_comm]
    congr 1
    by_cases hd : d = c
    · subst hd
      simp [utf8EncodeChar_ascii hc]
    · have hnot : UInt8.ofNat c.toNat ∉ String.utf8EncodeChar d := by
        intro hmem
        have heq := eq_of_ascii_mem hmem (by omega)
        exact hd (Char.toNat_inj.mp (heq.trans hbyte))
      simp [List.count_eq_zero_of_not_mem hnot, hd]

end Ceres.Library
