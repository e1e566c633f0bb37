/-
  File:      Ceres/Exporter/Torn.lean
  Subject:   A FILE CUT ANYWHERE IS TAKEN UP WHERE ITS LAST WHOLE RECORD ENDS (`exporter.py`:
             `_physical_lines`, `ExportLineWriter.lines`, `append`, `tail`).

  An append that is torn leaves the first bytes of a file. The tail of what is left says how many of them
  to keep; the records behind it are appended again.

  * `Inside` -- how many records lie wholly in the first bytes; `exists_inside`;
  * `tail_inside` -- the tail of those bytes; `append_inside` -- what makes the file whole again;
  * **`torn_files_recovered`** -- CSV and JSON lines.
-/
import Ceres.Exporter.LineFile

namespace Ceres.Exporter

open Ceres.Library Ceres.Database Ceres.Data LineWriter

/-! ## 1. Whole records -/

section Torn

variable {ρ : Type} {key : ρ → ExportKey} (W : LineWriter key)

/-- The first `k` records and no more lie wholly in the first `n` bytes of their file. -/
structure Inside (rs : List ρ) (n k : Nat) : Prop where
  bound : k ≤ rs.length
  whole : (W.content (rs.take k)).length ≤ n
  torn : k < rs.length → n < (W.content (rs.take (k + 1))).length

/-- What is read from the first `n` bytes of a file, and how they become the whole file again. -/
structure Recovered (rs : List ρ) (n : Nat) : Prop where
  /-- Not even the header is whole. -/
  header : n < W.header.length → W.tail ((W.content rs).take n) = .ok (none, 0) ∧
    (LineFile.append W [] rs none).1 = W.content rs
  /-- The header is, and some of the records. -/
  records : W.header.length ≤ n → ∃ k, Inside W rs n k ∧
    W.tail ((W.content rs).take n) = .ok (lastKey key (rs.take k), (W.content (rs.take k)).length) ∧
    (LineFile.append W (((W.content rs).take n).take (W.content (rs.take k)).length) (rs.drop k) none).1 =
      W.content rs

variable {W}

theorem content_take_drop (rs : List ρ) (k : Nat) :
    W.content rs = W.content (rs.take k) ++ ((rs.drop k).map W.encode).flatten := by
  unfold content
  rw [List.append_assoc, ← List.flatten_append, ← List.map_append, List.take_append_drop]

theorem exists_inside (rs : List ρ) {n : Nat} (h : W.header.length ≤ n) : ∃ k, Inside W rs n k := by
  let P : Nat → Prop := fun k => (W.content (rs.take k)).length ≤ n
  have hzero : P 0 := by
    show (W.content []).length ≤ n
    simpa [content] using h
  refine ⟨Nat.findGreatest P rs.length, Nat.findGreatest_le _, Nat.findGreatest_spec (Nat.zero_le _) hzero,
    fun hlt => ?_⟩
  have hmore : ¬ P (Nat.findGreatest P rs.length + 1) :=
    Nat.findGreatest_is_greatest (Nat.lt_succ_self _) (Nat.succ_le_of_lt hlt)
  exact not_le.mp hmore

/-- The first bytes of a file: the records inside them, and the start of the next one. -/
theorem take_inside {rs : List ρ} {n k : Nat} (h : Inside W rs n k) :
    ∃ torn, (W.content rs).take n = W.content (rs.take k) ++ torn ∧
      Ceres.Library.records W.complete torn = [] := by
  have hwhole := h.whole
  rcases h.bound.lt_or_eq with hlt | rfl
  · have htorn := h.torn hlt
    obtain ⟨r, hr⟩ : ∃ r, rs[k]? = some r := ⟨rs[k], List.getElem?_eq_getElem hlt⟩
    have hdrop : rs.drop k = r :: rs.drop (k + 1) := by
      rw [List.drop_eq_getElem_cons hlt]
      congr 1
      rw [List.getElem?_eq_getElem hlt] at hr
      exact Option.some.inj hr
    have hnext : W.content (rs.take (k + 1)) = W.content (rs.take k) ++ W.encode r := by
      rw [List.take_add_one, hr]
      simp [content]
    rw [hnext, List.length_append] at htorn
    refine ⟨(W.encode r).take (n - (W.content (rs.take k)).length), ?_, ?_⟩
    · rw [content_take_drop rs k, hdrop, List.map_cons, List.flatten_cons, List.take_append,
        List.take_of_length_le hwhole, List.take_append_of_le_length (by omega)]
    · refine records_torn (W.encode_unit r) ?_ (List.take_append_drop _ _).symm
      intro hnil
      rw [List.drop_eq_nil_iff] at hnil
      omega
  · rw [List.take_length] at hwhole ⊢
    refine ⟨[], ?_, rfl⟩
    rw [List.append_nil, List.take_of_length_le hwhole]

/-- **The tail of the first bytes of a file.** -/
theorem tail_inside {rs : List ρ} {n k : Nat} (h : Inside W rs n k) :
    W.tail ((W.content rs).take n) = .ok (lastKey key (rs.take k), (W.content (rs.take k)).length) := by
  obtain ⟨torn, hbytes, htorn⟩ := take_inside h
  rw [hbytes, W.tail_content _ htorn]

theorem take_whole {rs : List ρ} {n k : Nat} (h : Inside W rs n k) :
    ((W.content rs).take n).take (W.content (rs.take k)).length = W.content (rs.take k) := by
  obtain ⟨torn, hbytes, -⟩ := take_inside h
  rw [hbytes, List.take_left]

/-- Behind whole records the others make the file whole; an empty file gets its header again. -/
theorem append_inside (rs : List ρ) (k : Nat) :
    (LineFile.append W (W.content (rs.take k)) (rs.drop k) none).1 = W.content rs := by
  show W.content (rs.take k) ++ LineFile.appended W (W.content (rs.take k)) (rs.drop k) = _
  unfold LineFile.appended
  rw [content_take_drop rs k]
  split
  · rename_i hempty
    -- no header and no byte of a record
    have hheader : W.header = [] := by
      have happend : W.header ++ ((rs.take k).map W.encode).flatten = [] := hempty
      exact (List.append_eq_nil_iff.mp happend).1
    rw [hheader, List.nil_append]
  · rw [List.nil_append]

/-- **Every cut of a line writer's file.** -/
theorem recovered (rs : List ρ) (n : Nat) : Recovered W rs n := by
  constructor
  · intro hcut
    refine ⟨?_, rfl⟩
    have hsplit : W.header = (W.content rs).take n ++ W.header.drop n := by
      rw [content, List.take_append_of_le_length hcut.le, List.take_append_drop]
    refine W.tail_short ?_ hsplit
    rw [ne_eq, List.drop_eq_nil_iff]
    omega
  · intro hheader
    obtain ⟨k, hk⟩ := exists_inside (W := W) rs hheader
    refine ⟨k, hk, tail_inside hk, ?_⟩
    rw [take_whole hk]
    exact append_inside rs k

end Torn

/-! ## 2. The formats -/

/-- **Torn files are recovered exactly**, by the CSV writer with and without a header and by the JSON lines
    writer: for every list of records and every cut of their file. -/
theorem torn_files_recovered {ρ : Type} (key : ρ → ExportKey) (hkey : ∀ r, InYears (key r).timestamp)
    (floatText : UInt64 → Text) (hfloat : ∀ bits, '\n' ∉ floatText bits) (rs : List ρ) (n : Nat) :
    (∀ (headerRow : Bool) (names : List Text) (columns : ρ → List Json),
      Recovered (csvWriter key hkey floatText headerRow names columns) rs n) ∧
    (∀ (names : List String) (columns : ρ → List Json),
      Recovered (jsonLinesWriter key hkey floatText hfloat names columns) rs n) :=
  ⟨fun _ _ _ => recovered rs n, fun _ _ => recovered rs n⟩

/-- The key of the `i`th second of 1970. -/
def secondKey (i : Fin 3) : ExportKey := ⟨1000000 * i, BitVec.ofNat 128 i⟩

/-- Three rows whose cell holds a newline and a quote. -/
theorem torn_files_recovered_quoted :
    Recovered (csvWriter secondKey (by decide) (fun _ => ['0']) true ["content".toList]
      fun _ => [.string "a\n\"b".toList]) [0, 1, 2] 100 ∧
    Recovered (jsonLinesWriter secondKey (by decide) (fun _ => ['0']) (by simp) ["content"]
      fun _ => [.string "a\n\"b".toList]) [0, 1, 2] 100 := by
  have hall := torn_files_recovered secondKey (by decide) (fun _ => ['0']) (by simp) [0, 1, 2] 100
  exact ⟨hall.1 _ _ _, hall.2 _ _⟩

end Ceres.Exporter
