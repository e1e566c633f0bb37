/-
  File:      Ceres/Exporter/LineWriter.lean
  Subject:   FILES OF ENCODED LINES (`exporter.py`: `ExportLineWriter`, its `lines` and `tail`).

  A line writer's file is an optional header and one encoded line for each record; where the file ends
  is read from the file itself.

  * `LineWriter` -- the header, the encoding, the test for a complete record and the key of a line,
    with what makes them readable; `content` -- the file of some records;
  * `lines`, `tail` -- the last key and the length of the complete records;
  * `Healable` -- the start of a file in order; **`tail_heals`** -- cutting such a file at its tail
    leaves a file in order;
-/
import Ceres.Exporter.Live
import Ceres.Library.Lines
import Ceres.Library.Utf8

namespace Ceres.Exporter

open Ceres.Library Ceres.Database Ceres.Data

/-- `ExportFileError`, and the `ValueError` of a value that does not parse. -/
inductive FileError where
  | file | value
  deriving DecidableEq, Repr

structure LineWriter {ρ : Type} (key : ρ → ExportKey) where
  header : List UInt8
  encode : ρ → List UInt8
  /-- Where the lines joined so far are a record. -/
  complete : List UInt8 → Bool
  parseKey : List UInt8 → Except FileError ExportKey
  header_unit : header = [] ∨ IsUnit complete header
  encode_unit : ∀ r, IsUnit complete (encode r)
  parseKey_encode : ∀ r, parseKey (encode r) = .ok (key r)

namespace LineWriter

variable {ρ : Type} {key : ρ → ExportKey} (W : LineWriter key)

/-! ## 1. Where a file ends -/

/-- The file of some records. -/
def content (rs : List ρ) : List UInt8 := W.header ++ (rs.map W.encode).flatten

def lines (bytes : List UInt8) : Except FileError (List (ExportKey × List UInt8)) :=
  let parse := List.mapM fun line => (W.parseKey line).map fun k => (k, line)
  match decide (W.header = []), records W.complete bytes with
  | true, found => parse found
  | false, [] => .ok []
  | false, first :: found => if first = W.header then parse found else .error .file

/-- The last key of a file, and the length of its complete records. -/
def tail (bytes : List UInt8) : Except FileError (Option ExportKey × Nat) :=
  (W.lines bytes).map fun lines =>
    let last := lines.getLast?.map Prod.fst
    let length := (lines.map fun line => line.2.length).sum
    (last, if last.isSome ∨ W.header.length ≤ bytes.length then length + W.header.length else length)

/-- The records' keys strictly increase. -/
def Increasing (key : ρ → ExportKey) (rs : List ρ) : Prop := rs.Pairwise fun a b => key a < key b

/-- The file is the header and whole lines whose keys strictly increase. -/
def Ordered (bytes : List UInt8) : Prop := ∃ rs, Increasing key rs ∧ bytes = W.content rs

/-- The start of a file in order. -/
def Healable (bytes : List UInt8) : Prop := ∃ rs, Increasing key rs ∧ bytes <+: W.content rs

def lastKey (key : ρ → ExportKey) (rs : List ρ) : Option ExportKey := rs.getLast?.map key

theorem units_encode (rs : List ρ) : ∀ unit ∈ rs.map W.encode, IsUnit W.complete unit := by
  intro unit hunit
  obtain ⟨r, -, rfl⟩ := List.mem_map.mp hunit
  exact W.encode_unit r

theorem mapM_parseKey (rs : List ρ) :
    (rs.map W.encode).mapM (fun line => (W.parseKey line).map fun k => (k, line)) =
      .ok (rs.map fun r => (key r, W.encode r)) := by
  induction rs with
  | nil => rfl
  | cons r rs ih =>
    rw [List.map_cons, List.mapM_cons, ih, W.parseKey_encode]
    rfl

/-- What is read of a file of whole lines with the start of one behind them. -/
theorem lines_content (rs : List ρ) {torn : List UInt8} (htorn : records W.complete torn = []) :
    W.lines (W.content rs ++ torn) = .ok (rs.map fun r => (key r, W.encode r)) := by
  have hread := records_units (W.units_encode rs) torn
  rw [htorn, List.append_nil] at hread
  unfold lines content
  rcases W.header_unit with hnone | hunit
  · rw [hnone, List.nil_append, hread]
    exact W.mapM_parseKey rs
  · have hne := hunit.ne_nil
    have hheader : records W.complete (W.header ++ (rs.map W.encode).flatten ++ torn) =
        W.header :: rs.map W.encode := by
      have hunits : ∀ unit ∈ W.header :: rs.map W.encode, IsUnit W.complete unit := by
        intro unit hmem
        rcases List.mem_cons.mp hmem with rfl | hmem
        · exact hunit
        · exact W.units_encode rs unit hmem
      have hcons := records_units hunits torn
      rwa [htorn, List.append_nil, List.flatten_cons] at hcons
    rw [hheader, decide_eq_false hne]
    simp only [if_true]
    exact W.mapM_parseKey rs

theorem length_content (rs : List ρ) :
    (W.content rs).length = (rs.map fun r => (W.encode r).length).sum + W.header.length := by
  rw [content, List.length_append, List.length_flatten, List.map_map, add_comm]
  rfl

/-- The tail of whole lines with the start of one behind them. -/
theorem tail_content (rs : List ρ) {torn : List UInt8} (htorn : records W.complete torn = []) :
    W.tail (W.content rs ++ torn) = .ok (lastKey key rs, (W.content rs).length) := by
  have hlast : ((rs.map fun r => (key r, W.encode r)).getLast?.map Prod.fst) = lastKey key rs := by
    rw [List.getLast?_map, lastKey, Option.map_map]
    rfl
  have hlength : W.header.length ≤ (W.content rs ++ torn).length := by
    rw [List.length_append, length_content]
    omega
  rw [tail, W.lines_content rs htorn]
  simp only [Except.map, hlast, List.map_map, hlength, or_true, if_true, length_content]
  rfl

theorem tail_short {bytes rest : List UInt8} (hrest : rest ≠ []) (hheader : W.header = bytes ++ rest) :
    W.tail bytes = .ok (none, 0) := by
  have hne : W.header ≠ [] := by
    rw [hheader]
    simp [hrest]
  have hread : records W.complete bytes = [] := by
    rcases W.header_unit with hnone | hunit
    · exact absurd hnone hne
    · exact records_torn hunit hrest hheader
  have hlength : ¬ W.header.length ≤ bytes.length := by
    rw [hheader, List.length_append]
    have hpos := List.length_pos_iff.mpr hrest
    omega
  unfold tail lines
  rw [hread, decide_eq_false hne]
  simp [Except.map, hlength]

/-! ## 2. A torn file -/

variable {bytes : List UInt8}

/-- The start of some records one behind the other: whole ones, and the start of the next. -/
theorem take_flatten {units : List (List UInt8)} (h : bytes <+: units.flatten) :
    ∃ k torn, bytes = (units.take k).flatten ++ torn ∧
      (torn = [] ∨ ∃ unit ∈ units, ∃ rest, rest ≠ [] ∧ unit = torn ++ rest) := by
  induction units generalizing bytes with
  | nil =>
    refine ⟨0, [], ?_, .inl rfl⟩
    simpa using h
  | cons unit units ih =>
    rw [List.flatten_cons] at h
    obtain ⟨rest, hrest⟩ := h
    rcases List.append_eq_append_iff.mp hrest with ⟨mid, hunit, htail⟩ | ⟨mid, hbytes, htail⟩
    · by_cases hmid : mid = []
      · subst hmid
        rw [List.append_nil] at hunit
        exact ⟨1, [], by simp [hunit], .inl rfl⟩
      · exact ⟨0, bytes, by simp, .inr ⟨unit, List.mem_cons_self, mid, hmid, hunit⟩⟩
    · obtain ⟨k, torn, hmid, htorn⟩ := ih ⟨rest, htail.symm⟩
      refine ⟨k + 1, torn, by rw [hbytes, hmid, List.take_succ_cons, List.flatten_cons, List.append_assoc],
        ?_⟩
      rcases htorn with htorn | ⟨other, hother, hopen⟩
      · exact .inl htorn
      · exact .inr ⟨other, List.mem_cons_of_mem _ hother, hopen⟩

theorem start_cases {rs : List ρ} (h : bytes <+: W.content rs) : (∃ rest, rest ≠ [] ∧ W.header = bytes ++ rest) ∨
      ∃ k torn, bytes = W.content (rs.take k) ++ torn ∧ records W.complete torn = [] := by
  obtain ⟨rest, hrest⟩ := h
  rcases List.append_eq_append_iff.mp hrest with ⟨mid, hheader, -⟩ | ⟨mid, hbytes, hmid⟩
  · by_cases hmid : mid = []
    · subst hmid
      refine .inr ⟨0, [], ?_, rfl⟩
      simpa [content] using hheader.symm
    · exact .inl ⟨mid, hmid, hheader⟩
  · obtain ⟨k, torn, htake, htorn⟩ := take_flatten ⟨rest, hmid.symm⟩
    refine .inr ⟨k, torn, ?_, ?_⟩
    · rw [hbytes, htake, content, List.map_take, List.append_assoc]
    · rcases htorn with rfl | ⟨unit, hunit, rest', hne, hopen⟩
      · rfl
      · exact records_torn (W.units_encode rs unit hunit) hne hopen

/-- **A torn file is healed by cutting it at its tail.** What is left is a file in order that ends in
    the key the tail gives, or nothing where not even the header was whole. -/
theorem tail_heals (h : W.Healable bytes) :
    ∃ rs length, Increasing key rs ∧ W.tail bytes = .ok (lastKey key rs, length) ∧ length ≤ bytes.length ∧
      (bytes.take length = W.content rs ∨
        bytes.take length = [] ∧ rs = [] ∧ bytes.length < W.header.length) := by
  obtain ⟨rs, hrs, hstart⟩ := h
  rcases W.start_cases hstart with ⟨rest, hrest, hheader⟩ | ⟨k, torn, hbytes, htorn⟩
  · refine ⟨[], 0, List.Pairwise.nil, W.tail_short hrest hheader, Nat.zero_le _, .inr ⟨rfl, rfl, ?_⟩⟩
    have hpos := List.length_pos_iff.mpr hrest
    rw [hheader, List.length_append]
    omega
  · refine ⟨rs.take k, (W.content (rs.take k)).length, hrs.sublist (List.take_sublist k rs), ?_, ?_,
      .inl ?_⟩
    · rw [hbytes, W.tail_content _ htorn]
    · rw [hbytes, List.length_append]
      omega
    · rw [hbytes, List.take_left]

theorem Ordered.healable (h : W.Ordered bytes) : W.Healable bytes := by
  obtain ⟨rs, hrs, rfl⟩ := h
  exact ⟨rs, hrs, List.prefix_rfl⟩

end LineWriter

end Ceres.Exporter
