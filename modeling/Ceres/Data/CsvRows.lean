/-
  File:      Ceres/Data/CsvRows.lean
  Subject:   RENDERING RECORDS AS CSV (`rust/ceres-entities/src/records.rs`).

  * `csvCell`, `csvRow` -- a cell, quoted where it has to be, and a row of them;
  * `project`, `projectedCell`, `toCsvLinesProjected`, `toCsvLines` -- the rows of an export;
  * `read_csvRows` -- a reader of comma-separated text gets the rows that are not a blank line;
  * **`csvRows_read_back`** -- it gets them all if none is, and none starts with a byte order mark that it drops;
  * `toCsvLinesProjected_rows`, `toCsvLinesProjected_read` -- so an export of two columns or more reads back;
    `toCsvLines_read` -- and that of a whole schema.
-/
import Ceres.Data.Json
import Ceres.Library.CsvReader
import Ceres.Library.Fallible

namespace Ceres.Data

open Ceres.Library
open Ceres.Library.CsvReader (MARK dropMark doubled special Writes read)

/-! ## 1. Rows -/

/-- One cell, quoted where it holds the delimiter, a quote or a line break. -/
def csvCell (value : Text) : Text :=
  if value.any fun c => c = '"' || c = ',' || c = '\n' || c = '\r' then
    '"' :: (value.flatMap fun c => if c = '"' then ['"', c] else [c]) ++ ['"']
  else value

/-- An absent value renders as an empty cell. -/
def csvRow (cells : List (Option Text)) : Text :=
  [','].intercalate (cells.map fun cell => cell.elim [] csvCell) ++ ['\n']

/-! ## 2. Exports -/

section Export

variable {ρ ε : Type} (toValue : ρ → Except ε Json) (jsonText : Json → Text)

def Json.fields : Json → Object
  | .object fields => fields
  | _ => []

/-- A name the record's object lacks projects as null; one field may fill several names. -/
def project (record : ρ) (fields : List (String × String)) : Except ε Object := do
  let object := (← toValue record).fields
  return fields.foldl
    (fun projected field => projected.insert field.2 ((object.get field.1).getD .null)) []

/-- The names of a projection, each at its first place. -/
def projectedAliases (fields : List (String × String)) : List String :=
  fields.foldl (fun names field => if names.contains field.2 then names else names ++ [field.2]) []

def projectedCell : Json → Option Text
  | .null => none
  | .string text => some text
  | other => some (jsonText other)

def projectedRow (fields : List (String × String)) (record : ρ) : Except ε (List (Option Text)) := do
  return (← project toValue record fields).map fun entry => projectedCell jsonText entry.2

def headerRow (fields : List (String × String)) : List (Option Text) :=
  (projectedAliases fields).map fun name => some name.toList

def toCsvLinesProjected (records : List ρ) (fields : List (String × String)) (header : Bool) :
    Except ε Text := do
  let lines := if header then csvRow (headerRow fields) else []
  records.foldlM (fun lines record => do
    return lines ++ csvRow (← projectedRow toValue jsonText fields record)) lines

/-- The whole schema, every field under its own key. -/
def toCsvLines (wireKeys : List String) (records : List ρ) (header : Bool) : Except ε Text :=
  toCsvLinesProjected toValue jsonText records (wireKeys.map fun key => (key, key)) header

end Export

/-! ## 3. What a reader gets -/

/-- The line of the row is blank. -/
def blankRow : List (Option Text) → Bool
  | [] => true
  | [cell] => cell.getD [] = []
  | _ => false

/-- The text of the rows begins with a byte order mark. -/
def marked : List (List (Option Text)) → Bool
  | (some (c :: value) :: _) :: _ => c = MARK && !value.any special
  | _ => false

theorem blankRow_of_length : ∀ {row : List (Option Text)}, 2 ≤ row.length → blankRow row = false
  | [], h => absurd h (by decide)
  | [_], h => absurd h (Nat.lt_irrefl 1)
  | _ :: _ :: _, _ => rfl

theorem csvCell_plain {value : Text} (h : value.any special = false) : csvCell value = value := by
  have hnone : ¬ (value.any special = true) := by rw [h]; exact Bool.false_ne_true
  exact if_neg hnone

theorem csvCell_quoted {value : Text} (h : value.any special = true) :
    csvCell value = '"' :: doubled value ++ ['"'] := by
  have hdoubled : (value.flatMap fun c => if c = '"' then ['"', c] else [c]) = doubled value := by
    refine List.flatMap_congr fun c _ => ?_
    by_cases hc : c = '"'
    · rw [if_pos hc, if_pos hc, hc]
    · rw [if_neg hc, if_neg hc]
  rw [← hdoubled]
  exact if_pos h

theorem writes_csvCell (value : Text) : Writes (csvCell value) value := by
  cases h : value.any special with
  | false =>
    rw [csvCell_plain h]
    exact CsvReader.writes_plain h
  | true =>
    rw [csvCell_quoted h]
    exact CsvReader.writes_quoted value

theorem writes_cell : ∀ cell : Option Text, Writes (cell.elim [] csvCell) (cell.getD [])
  | none => CsvReader.writes_plain rfl
  | some value => writes_csvCell value

/-- A cell does not begin with the end of a line. -/
theorem csvCell_head {value text : Text} {c : Char} (h : csvCell value = c :: text) : c ≠ '\n' ∧ c ≠ '\r' := by
  cases hspecial : value.any special with
  | true =>
    rw [csvCell_quoted hspecial, List.cons_append] at h
    have hc : c = '"' := (List.cons.inj h).1.symm
    subst hc
    exact ⟨by decide, by decide⟩
  | false =>
    rw [csvCell_plain hspecial] at h
    rw [h, List.any_cons, Bool.or_eq_false_iff] at hspecial
    refine ⟨fun hc => ?_, fun hc => ?_⟩ <;> simp [special, hc] at hspecial

theorem csvCell_ne_nil {value : Text} (h : value ≠ []) : csvCell value ≠ [] := by
  cases hspecial : value.any special with
  | true =>
    rw [csvCell_quoted hspecial]
    exact List.cons_ne_nil _ _
  | false =>
    rw [csvCell_plain hspecial]
    exact h

theorem line_head : ∀ {row : List (Option Text)}, blankRow row = false →
    ∃ c line, [','].intercalate (row.map fun cell => cell.elim [] csvCell) = c :: line ∧ c ≠ '\n' ∧ c ≠ '\r'
  | [], h => Bool.noConfusion h
  | [none], h => Bool.noConfusion h
  | [some value], h => by
      have hvalue : value ≠ [] := fun hnil => by simp [blankRow, hnil] at h
      obtain ⟨c, line, hline⟩ := List.exists_cons_of_ne_nil (csvCell_ne_nil hvalue)
      exact ⟨c, line, by rw [List.map_singleton, List.intercalate_singleton]; exact hline, csvCell_head hline⟩
  | cell :: next :: row, _ => by
      rw [List.map_cons, List.map_cons, List.intercalate_cons_cons]
      cases hcell : cell.elim [] csvCell with
      | nil => exact ⟨',', _, rfl, by decide, by decide⟩
      | cons c line =>
        cases cell with
        | none => exact absurd hcell (List.cons_ne_nil _ _).symm
        | some value => exact ⟨c, _, rfl, csvCell_head hcell⟩

/-- What an absent cell reads as: the empty text. -/
def readBack (row : List (Option Text)) : List Text := row.map (·.getD [])

theorem read_csvRow (row : List (Option Text)) (rest : Text) :
    read (csvRow row ++ rest) = if blankRow row then read rest else readBack row :: read rest := by
  rw [csvRow, List.append_assoc, List.singleton_append]
  cases hblank : blankRow row with
  | true =>
    have hline : [','].intercalate (row.map fun cell => cell.elim [] csvCell) = [] := by
      cases row with
      | nil => rfl
      | cons cell cells =>
        cases cells with
        | cons next cells => exact Bool.noConfusion hblank
        | nil =>
          rw [List.map_singleton, List.intercalate_singleton]
          cases cell with
          | none => rfl
          | some value =>
            have hvalue : value = [] := by simpa [blankRow] using hblank
            subst hvalue
            rfl
    rw [hline, List.nil_append, if_pos rfl, CsvReader.read_blank]
  | false =>
    have hwrites : List.Forall₂ Writes (row.map fun cell => cell.elim [] csvCell) (readBack row) := by
      rw [readBack, List.forall₂_map_left_iff, List.forall₂_map_right_iff]
      exact List.forall₂_same.mpr fun cell _ => writes_cell cell
    obtain ⟨c, line, hline, hnewline, hreturn⟩ := line_head hblank
    rw [CsvReader.read_record hwrites hline hnewline hreturn, if_neg Bool.false_ne_true]

/-- **A reader gets the rows that are not a blank line.** -/
theorem read_csvRows (rows : List (List (Option Text))) :
    read (rows.flatMap csvRow) = (rows.filter fun row => !blankRow row).map readBack := by
  induction rows with
  | nil => rfl
  | cons row rows ih =>
    rw [List.flatMap_cons, read_csvRow, ih]
    cases h : blankRow row with
    | true => rw [if_pos rfl, List.filter_cons_of_neg (by simp [h])]
    | false => rw [if_neg Bool.false_ne_true, List.filter_cons_of_pos (by simp [h]), List.map_cons]

/-! ## 4. A byte order mark -/

/-- What follows a cell in its row. -/
def behindCell : List (Option Text) → Text
  | [] => ['\n']
  | next :: cells => ',' :: csvRow (next :: cells)

theorem csvRow_cons (cell : Option Text) : ∀ cells : List (Option Text),
    csvRow (cell :: cells) = cell.elim [] csvCell ++ behindCell cells
  | [] => by rw [csvRow, List.map_singleton, List.intercalate_singleton]; rfl
  | next :: cells => by
      rw [csvRow, List.map_cons, List.map_cons, List.intercalate_cons_cons, List.append_assoc, List.append_assoc]
      rfl

theorem behindCell_head {cells : List (Option Text)} {text rest : Text} : behindCell cells ++ text ≠ MARK :: rest := by
  intro h
  cases cells with
  | nil => exact absurd (List.cons.inj h).1 (by decide)
  | cons next cells => exact absurd (List.cons.inj h).1 (by decide)

theorem marked_of_head {row : List (Option Text)} {rows : List (List (Option Text))} {text : Text}
    (h : csvRow row ++ rows.flatMap csvRow = MARK :: text) : marked (row :: rows) = true := by
  cases row with
  | nil => exact absurd (List.cons.inj h).1 (by decide)
  | cons cell cells =>
    rw [csvRow_cons, List.append_assoc] at h
    cases cell with
    | none => exact absurd h behindCell_head
    | some value =>
      change csvCell value ++ _ = _ at h
      cases hquoted : value.any special with
      | true =>
        rw [csvCell_quoted hquoted] at h
        exact absurd (List.cons.inj h).1 (by decide)
      | false =>
        rw [csvCell_plain hquoted] at h
        cases value with
        | nil => exact absurd h behindCell_head
        | cons c value =>
          rw [List.any_cons, Bool.or_eq_false_iff] at hquoted
          show (decide (c = MARK) && !value.any special) = true
          rw [(List.cons.inj h).1, hquoted.2]
          rfl

theorem dropMark_unmarked {rows : List (List (Option Text))} (h : marked rows = false) :
    dropMark (rows.flatMap csvRow) = rows.flatMap csvRow := by
  cases htext : rows.flatMap csvRow with
  | nil => rfl
  | cons c text =>
    have hc : c ≠ MARK := by
      rintro rfl
      cases rows with
      | nil => exact List.cons_ne_nil _ _ htext.symm
      | cons row rows => exact Bool.false_ne_true (h.symm.trans (marked_of_head htext))
    exact if_neg hc

theorem dropMark_marked {value : Text} (h : value.any special = false) (cells : List (Option Text))
    (rows : List (List (Option Text))) : dropMark (((some (MARK :: value) :: cells) :: rows).flatMap csvRow) =
      ((some value :: cells) :: rows).flatMap csvRow := by
  have hmarked : (MARK :: value).any special = false := by rw [List.any_cons, h]; rfl
  have hcell : csvCell (MARK :: value) = MARK :: csvCell value := by
    rw [csvCell_plain hmarked, csvCell_plain h]
  have hrow : csvRow (some (MARK :: value) :: cells) = MARK :: csvRow (some value :: cells) := by
    rw [csvRow_cons, csvRow_cons]
    exact congrArg (· ++ behindCell cells) hcell
  rw [List.flatMap_cons, List.flatMap_cons, hrow, List.cons_append, dropMark, if_pos rfl]

theorem marked_cases : ∀ {rows : List (List (Option Text))}, marked rows = true →
    ∃ value cells others, rows = (some (MARK :: value) :: cells) :: others ∧ value.any special = false
  | [], h => Bool.noConfusion h
  | [] :: _, h => Bool.noConfusion h
  | (none :: _) :: _, h => Bool.noConfusion h
  | (some [] :: _) :: _, h => Bool.noConfusion h
  | (some (c :: value) :: cells) :: others, h => by
      have hboth : c = MARK ∧ value.any special = false := by simpa [marked] using h
      exact ⟨value, cells, others, by rw [hboth.1], hboth.2⟩

theorem read_marked {rows : List (List (Option Text))} (h : marked rows = true) :
    read (dropMark (rows.flatMap csvRow)) ≠ rows.map readBack := by
  obtain ⟨value, cells, others, rfl, hvalue⟩ := marked_cases h
  rw [dropMark_marked hvalue, read_csvRows]
  intro heq
  cases hblank : blankRow (some value :: cells) with
  | true =>
    -- the first row is lost, so there are fewer
    rw [List.filter_cons_of_neg (by simp [hblank])] at heq
    have hlength := congrArg List.length heq
    rw [List.length_map, List.length_map, List.length_cons] at hlength
    have hle := List.length_filter_le (fun row => !blankRow row) others
    omega
  | false =>
    rw [List.filter_cons_of_pos (by simp [hblank]), List.map_cons, List.map_cons] at heq
    have hcells : value :: readBack cells = (MARK :: value) :: readBack cells := (List.cons.inj heq).1
    exact List.cons_ne_self _ _ (List.cons.inj hcells).1.symm

/-! ## 5. Reading back -/

theorem read_iff {rows : List (List (Option Text))} :
    read (rows.flatMap csvRow) = rows.map readBack ↔ ∀ row ∈ rows, blankRow row = false := by
  rw [read_csvRows]
  constructor
  · intro heq row hrow
    have hlength := congrArg List.length heq
    rw [List.length_map, List.length_map, List.length_filter_eq_length_iff] at hlength
    simpa using hlength row hrow
  · intro hall
    rw [List.filter_eq_self.mpr fun row hrow => by rw [hall row hrow]; rfl]

/-- **Rendered rows read back** exactly when none of them is a blank line and, for a reader that drops a byte
    order mark, the first does not begin with one outside quotes. -/
theorem csvRows_read_back (bom : Bool) (rows : List (List (Option Text))) :
    read (if bom then dropMark (rows.flatMap csvRow) else rows.flatMap csvRow) = rows.map readBack ↔
      (∀ row ∈ rows, blankRow row = false) ∧ (bom = true → marked rows = false) := by
  cases bom with
  | false => exact read_iff.trans ⟨fun hall => ⟨hall, fun h => Bool.noConfusion h⟩, fun h => h.1⟩
  | true =>
    rw [if_pos rfl]
    constructor
    · intro heq
      have hmarked : marked rows = false := by
        by_contra h
        exact read_marked (Bool.not_eq_false _ ▸ h) heq
      rw [dropMark_unmarked hmarked] at heq
      exact ⟨read_iff.mp heq, fun _ => hmarked⟩
    · intro ⟨hall, hmarked⟩
      rw [dropMark_unmarked (hmarked rfl)]
      exact read_iff.mpr hall

/-! ## 6. Exports read back -/

theorem insert_keys (key : String) (value : Json) : ∀ object : Object, (object.insert key value).map (·.1) =
      if (object.map (·.1)).contains key then object.map (·.1) else object.map (·.1) ++ [key]
  | [] => rfl
  | entry :: object => by
      rw [Object.insert, List.map_cons, List.contains_cons]
      by_cases hkey : entry.1 = key
      · rw [if_pos hkey, hkey, beq_self_eq_true, Bool.true_or, if_pos rfl]
        rfl
      · have hbeq : (key == entry.1) = false := beq_eq_false_iff_ne.mpr fun h => hkey h.symm
        rw [if_neg hkey, List.map_cons, insert_keys key value object, hbeq, Bool.false_or]
        split
        · rfl
        · rfl

section Read

variable {ρ ε : Type} {toValue : ρ → Except ε Json} {jsonText : Json → Text}

theorem foldl_insert_keys (value : String → Json) (fields : List (String × String)) : ∀ projected : Object,
    (fields.foldl (fun projected field => Object.insert projected field.2 (value field.1)) projected).map (·.1) =
      fields.foldl (fun names field => if names.contains field.2 then names else names ++ [field.2])
        (projected.map (·.1)) := by
  induction fields with
  | nil => exact fun _ => rfl
  | cons field fields ih =>
    intro projected
    rw [List.foldl_cons, List.foldl_cons, ih, insert_keys]

variable {fields : List (String × String)}

/-- **A projection's keys** are its names, whatever the record. -/
theorem project_keys {record : ρ} {object : Object}
    (h : project toValue record fields = .ok object) : object.map (·.1) = projectedAliases fields := by
  obtain ⟨value, -, h⟩ := bind_eq_ok h
  rw [← Except.ok.inj h]
  exact foldl_insert_keys (fun name => (value.fields.get name).getD .null) fields []

theorem projectedRow_width {record : ρ} {row : List (Option Text)}
    (h : projectedRow toValue jsonText fields record = .ok row) :
    row.length = (projectedAliases fields).length := by
  obtain ⟨object, hproject, h⟩ := bind_eq_ok h
  rw [← Except.ok.inj h, ← project_keys hproject, List.length_map, List.length_map]

theorem foldl_append_csvRow (rows : List (List (Option Text))) : ∀ lines : Text,
    rows.foldl (fun lines row => lines ++ csvRow row) lines = lines ++ rows.flatMap csvRow := by
  induction rows with
  | nil => exact fun lines => (List.append_nil lines).symm
  | cons row rows ih =>
    intro lines
    rw [List.foldl_cons, ih, List.flatMap_cons, List.append_assoc]

/-- **An export is the header and a row for each record.** -/
theorem toCsvLinesProjected_rows {header : Bool} {records : List ρ} {text : Text}
    (h : toCsvLinesProjected toValue jsonText records fields header = .ok text) :
    ∃ rows, records.mapM (projectedRow toValue jsonText fields) = .ok rows ∧
      text = ((if header then [headerRow fields] else []) ++ rows).flatMap csvRow := by
  have hfold := (foldlM_mapM (projectedRow toValue jsonText fields) (fun lines row => lines ++ csvRow row) records
    (if header then csvRow (headerRow fields) else [])).symm.trans h
  obtain ⟨rows, hrows, hlines⟩ := bind_eq_ok hfold
  refine ⟨rows, hrows, ?_⟩
  rw [← Except.ok.inj hlines, foldl_append_csvRow, List.flatMap_append]
  cases header with
  | false => rfl
  | true => rw [if_pos rfl, if_pos rfl, List.flatMap_singleton]

/-- **An export of two columns or more reads back**, the header with it. -/
theorem toCsvLinesProjected_read (hwidth : 2 ≤ (projectedAliases fields).length) {header : Bool}
    {records : List ρ} {text : Text} (h : toCsvLinesProjected toValue jsonText records fields header = .ok text) :
    ∃ rows, records.mapM (projectedRow toValue jsonText fields) = .ok rows ∧
      read text = ((if header then [headerRow fields] else []) ++ rows).map readBack := by
  obtain ⟨rows, hrows, rfl⟩ := toCsvLinesProjected_rows h
  refine ⟨rows, hrows, ?_⟩
  have hwide : ∀ row : List (Option Text), row.length = (projectedAliases fields).length →
      blankRow row = false := by
    intro row hrow
    rw [← hrow] at hwidth
    exact blankRow_of_length hwidth
  refine read_iff.mpr fun row hrow => ?_
  rcases List.mem_append.mp hrow with hheader | hrecord
  · cases header with
    | false => exact absurd hheader List.not_mem_nil
    | true =>
      rw [if_pos rfl, List.mem_singleton] at hheader
      exact hwide row (by rw [hheader, headerRow, List.length_map])
  · exact hwide row (forall_of_mapM_ok (fun _ _ => projectedRow_width) records hrows row hrecord)

/-- The names of a schema's own projection are its keys, in their order. -/
theorem projectedAliases_keys {keys : List String} (h : keys.Nodup) :
    projectedAliases (keys.map fun key => (key, key)) = keys := by
  have hfold : ∀ (keys names : List String), (names ++ keys).Nodup →
      (keys.map fun key => (key, key)).foldl (fun (names : List String) (field : String × String) =>
        if names.contains field.2 then names else names ++ [field.2]) names = names ++ keys := by
    intro keys
    induction keys with
    | nil => exact fun names _ => (List.append_nil names).symm
    | cons key keys ih =>
      intro names hnodup
      have hnew : names.contains key = false := by
        rw [List.contains_eq_mem, decide_eq_false_iff_not]
        exact fun hmem => (List.nodup_append.mp hnodup).2.2 key hmem key List.mem_cons_self rfl
      rw [List.map_cons, List.foldl_cons, hnew, if_neg Bool.false_ne_true, ih]
      · rw [List.append_assoc, List.singleton_append]
      · rwa [List.append_assoc, List.singleton_append]
  exact hfold keys [] h

/-- **So an export of a schema of two fields or more reads back.** -/
theorem toCsvLines_read {wireKeys : List String} (hkeys : wireKeys.Nodup) (hwidth : 2 ≤ wireKeys.length)
    {header : Bool} {records : List ρ} {text : Text}
    (h : toCsvLines toValue jsonText wireKeys records header = .ok text) :
    ∃ rows, records.mapM (projectedRow toValue jsonText (wireKeys.map fun key => (key, key))) = .ok rows ∧
      read text = ((if header then [wireKeys.map fun key => some key.toList] else []) ++ rows).map readBack := by
  have hnames := projectedAliases_keys hkeys
  have hwide : 2 ≤ (projectedAliases (wireKeys.map fun key => (key, key))).length := by rwa [hnames]
  obtain ⟨rows, hrows, hread⟩ := toCsvLinesProjected_read hwide h
  rw [headerRow, hnames] at hread
  exact ⟨rows, hrows, hread⟩

end Read

namespace Sample

/-- A message that no connection carried. -/
def message : Json :=
  .object [("direction", .string "send".toList), ("connection", .null), ("data", .string "a,b".toList)]

def rows : List (List (Option Text)) := [[some "connection".toList], [none]]

/-- **The row of an absent cell is lost**: a message exported by its connection alone is a blank line. -/
theorem absent_connection_lost :
    (toCsvLinesProjected .ok (fun _ => []) [message] [("connection", "connection")] true : Except Text Text) =
      .ok (rows.flatMap csvRow) ∧
    (∀ row ∈ rows, row.length = 1) ∧
    read (rows.flatMap csvRow) = [["connection".toList]] ∧
    read (rows.flatMap csvRow) ≠ rows.map readBack := by
  refine ⟨by decide, by decide, by decide, by decide⟩

/-- With its direction the message is read, its absent connection as an empty text. -/
theorem two_columns_read : ∃ rows, [message].mapM (projectedRow .ok (fun _ => [])
      (["direction", "connection"].map fun key => (key, key))) = (.ok rows : Except Text _) ∧
    read "direction,connection\nsend,\n".toList =
      ([["direction", "connection"].map fun key => some key.toList] ++ rows).map readBack :=
  @toCsvLines_read _ Text .ok (fun _ => []) ["direction", "connection"] (by decide) (by decide) true [message] _ (by decide)

end Sample

end Ceres.Data
