/-
  File:      Ceres/Database/Agreement.lean
  Subject:   THE MATCHER AND THE COMPILER (`rust/ceres-database/src/filter.rs`), on one stored row.

  The same tree is read twice: by the matcher on the record's wire form, and by SQLite through the
  conditions it compiles to. Family by family both say the same of a stored row. They part at a node with
  `or` children and nothing of its own, at empty patterns over a column that is NULL, and at instants whose
  stored text is out of order.

  * `Holds` -- a row, and the record it travels as; `SqliteFunctions`, `JsonTexts` -- what is taken from the
    engine and from the JSON writer;
  * `equality_agrees`, `operation_agrees`, `address_agrees`, `clock_agrees`, `timestamps_agree`,
    `level_agrees`, `computed_agrees` -- one family of conditions each;
  * `own_agrees` -- the conditions of one node;
  * **`matches_iff_selects`** -- a tree.
-/
import Ceres.Database.TextOrder

namespace Ceres.Database

open Ceres.Library
open Ceres.Library.Sql
open Ceres.Data

set_option linter.unusedSectionVars false

/-! ## 1. A stored row -/

/-- What is taken from the writer of JSON texts: only the null value is written `null`. -/
structure JsonTexts (jsonText : Json → Text) : Prop where
  null : jsonText .null = "null".toList
  string : ∀ text, jsonText (.string text) ≠ "null".toList

/-- What is taken from SQLite: a text cast to a text is itself, and `strftime` reads the clock of a stored
    timestamp. -/
structure SqliteFunctions (other : String → List Value → Value) : Prop where
  castText : ∀ text, other "CAST(? AS TEXT)" [.text text] = .text text
  hour : ∀ t, InYears t → other "CAST(? AS INTEGER)"
    [other "strftime" [.text "%H".toList, .text (timestampText t)]] = .integer (hourOf t)
  minute : ∀ t, InYears t → other "CAST(? AS INTEGER)"
    [other "strftime" [.text "%M".toList, .text (timestampText t)]] = .integer (minuteOf t)

/-- The row holds the cells in a table's columns, and the record has their wire forms. A column that is
    NULL may be left out of the record. -/
structure Holds (table : Table) (jsonText : Json → Text) (cells : String → Cell) (row : Row)
    (fields : Fields) : Prop where
  fits : ∀ field ∈ table.schema.fields, (cells field.key).fits field.family = true ∨
    cells field.key = .null ∧ field.key ∈ table.schema.nullable
  row : ∀ field ∈ table.schema.fields, row field.key = (cells field.key).stored jsonText
  fields : ∀ field ∈ table.schema.fields,
    fields field.key = some ⟨jsonText (cells field.key).wire, (cells field.key).wire⟩ ∨
      cells field.key = .null ∧ fields field.key = none
  /-- Its timestamps are written with years of four digits. -/
  years : ∀ field ∈ table.schema.fields, ∀ t, cells field.key = .timestamp t → InYears t

/-- The columns that may be NULL hold text or a UUID. -/
theorem nullable_family : ∀ table : Table, ∀ field ∈ table.schema.fields,
    field.key ∈ table.schema.nullable → field.family = .text ∨ field.family = .uuid := by
  intro table
  cases table <;> decide

variable {family : FieldFamily}

theorem Cell.of_fits {cell : Cell} (h : cell.fits family = true) : match family with
    | .uuid => ∃ id, cell = .uuid id
    | .timestamp => ∃ t, cell = .timestamp t
    | .bytes => ∃ bytes, cell = .bytes bytes
    | .json => ∃ o, cell = .map o
    | .boolean => ∃ b, cell = .boolean b
    | .jsonValue => ∃ j, cell = .value j
    | _ => ∃ text, cell = .text text := by
  cases family <;> cases cell <;> first | exact ⟨_, rfl⟩ | exact (Bool.false_ne_true h).elim

theorem Values.of_fits {values : Values} (h : values.fits family = true) : match values with
    | .uuids _ => family = .uuid
    | .texts wanted => wanted ≠ [] ∧
        (family = .jsonValue ∨ ∀ cell : Cell, cell.fits family = true → ∃ text, cell = .text text)
    | .stamps _ => family = .timestamp
    | .bytes _ => family = .bytes
    | .boolean _ => family = .boolean := by
  cases values with
  | texts wanted =>
    have hne : (!wanted.isEmpty) = true := by
      cases family <;> first | exact h | exact (Bool.false_ne_true h).elim
    refine ⟨by simpa using hne, ?_⟩
    cases family <;> first
      | exact .inl rfl
      | exact .inr fun cell hcell => Cell.of_fits hcell
      | exact (Bool.false_ne_true h).elim
  | _ => cases family <;> first | rfl | exact (Bool.false_ne_true h).elim

theorem Values.of_fitsOperation {values : Values} (h : values.fitsOperation family = true) : match values with
    | .texts patterns => patterns ≠ [] ∧
        (family = .json ∨ ∀ cell : Cell, cell.fits family = true → ∃ text, cell = .text text)
    | .bytes patterns => patterns ≠ [] ∧ family = .bytes
    | _ => False := by
  cases values with
  | texts patterns =>
    have hne : (!patterns.isEmpty) = true := by
      cases family <;> first | exact h | exact (Bool.false_ne_true h).elim
    refine ⟨by simpa using hne, ?_⟩
    cases family <;> first
      | exact .inl rfl
      | exact .inr fun cell hcell => Cell.of_fits hcell
      | exact (Bool.false_ne_true h).elim
  | bytes patterns =>
    have hne : (!patterns.isEmpty) = true := by
      cases family <;> first | exact h | exact (Bool.false_ne_true h).elim
    refine ⟨by simpa using hne, ?_⟩
    cases family <;> first | rfl | exact (Bool.false_ne_true h).elim
  | _ => cases family <;> exact (Bool.false_ne_true h).elim

/-! ## 2. The truth of a condition -/

section Truth

variable {backend : Backend} {rows : List Row} {row : Row}

/-- An equality or an `IN` is true where the value is among those wanted. -/
theorem matchOneOf_true {subject : Term} {values : List Value} :
    (matchOneOf subject values).eval backend rows row = some true ↔
      subject.eval backend row ∈ values ∧ subject.eval backend row ≠ .null := by
  have hmany : (Condition.isIn subject values).eval backend rows row = some true ↔
      subject.eval backend row ∈ values ∧ subject.eval backend row ≠ .null := amongValues_true
  unfold matchOneOf
  split
  · show compareValues .eq _ _ = some true ↔ _
    rw [compareValues_eq_true, List.mem_singleton]
    rfl
  · exact hmany

end Truth

/-! ## 3. One column -/

/-- What a row and a record hold of one field: a value of its family, or nothing. -/
inductive Carried (jsonText : Json → Text) (family : FieldFamily) : Value → Option RawValue → Prop where
  | cell (cell : Cell) : cell.fits family = true → (∀ t, cell = .timestamp t → InYears t) →
      Carried jsonText family (cell.stored jsonText) (some ⟨jsonText cell.wire, cell.wire⟩)
  | null (raw : Option RawValue) : (raw = none ∨ raw = some ⟨jsonText .null, .null⟩) →
      (family = .text ∨ family = .uuid) → Carried jsonText family .null raw

theorem Carried.exists_cell {jsonText : Json → Text} {value : Value} {raw : Option RawValue}
    (h : Carried jsonText family value raw) (hfamily : ¬ (family = .text ∨ family = .uuid)) :
    ∃ cell : Cell, cell.fits family = true ∧ (∀ t, cell = .timestamp t → InYears t) ∧
      value = cell.stored jsonText ∧ raw = some ⟨jsonText cell.wire, cell.wire⟩ := by
  cases h with
  | null _ hraw hnull => exact absurd hnull hfamily
  | cell cell hcell hyears => exact ⟨cell, hcell, hyears, rfl, rfl⟩

theorem Holds.carried {table : Table} {jsonText : Json → Text} {cells : String → Cell} {row : Row}
    {fields : Fields} (h : Holds table jsonText cells row fields) {field : FilterField}
    (hfield : field ∈ table.schema.fields) :
    Carried jsonText field.family (row field.key) (fields field.key) := by
  have hrow := h.row field hfield
  rcases h.fits field hfield with hfits | ⟨hnull, hnullable⟩
  · have hraw : fields field.key = some ⟨jsonText (cells field.key).wire, (cells field.key).wire⟩ := by
      refine (h.fields field hfield).resolve_right fun hnull => ?_
      rw [hnull.1] at hfits
      cases hfamily : field.family <;> rw [hfamily] at hfits <;> exact (Bool.false_ne_true hfits).elim
    rw [hrow, hraw]
    exact .cell _ hfits (h.years field hfield)
  · rw [hrow, hnull]
    refine .null _ ?_ (nullable_family table field hfield hnullable)
    rcases h.fields field hfield with hraw | hraw
    · rw [hraw, hnull]
      exact .inr rfl
    · exact .inl hraw.2

section Field

variable {jsonText : Json → Text} {lower : Text → Text} {letter : Char → Char}
  {other : String → List Value → Value} {rows : List Row} {row : Row} {raw : Option RawValue}
  {field : FilterField}

/-- The SQLite engine, with the functions on bytes and what is left of the others. -/
abbrev sqlite (letter : Char → Char) (other : String → List Value → Value) : Backend :=
  SqlDialect.sqliteText.backend letter (sqliteCall other)

theorem string_of_null {raw : Option RawValue} (h : raw = none ∨ raw = some ⟨jsonText .null, .null⟩) :
    raw.bind RawValue.string = none := by
  rcases h with rfl | rfl <;> rfl

/-- **An equality.** -/
theorem equality_agrees (hother : SqliteFunctions other) {values : Values}
    (h : Carried jsonText field.family (row field.key) raw) (hvalues : values.fits field.family = true) :
    equalityHeld jsonText field raw values = true ↔
      (equalityCondition field .sqliteText values).eval (sqlite letter other) rows row = some true := by
  generalize hvalue : row field.key = value at h
  have hcolumn : ∀ wanted : List Value, (matchOneOf (.column field.key) wanted).eval (sqlite letter other)
      rows row = some true ↔ value ∈ wanted ∧ value ≠ .null := by
    intro wanted
    rw [matchOneOf_true, Term.eval, hvalue]
  cases h with
  | null _ hraw hfamily =>
    have hstring := string_of_null hraw
    have hnotJson : field.family ≠ .jsonValue := by
      rcases hfamily with hfamily | hfamily <;> simp [hfamily]
    unfold equalityHeld equalityCondition
    cases values with
    | uuids ids => simp [hstring, hcolumn]
    | texts wanted => simp [hstring, hnotJson, hcolumn]
    | stamps stamps => simp [hstring, recordTimestamp, hcolumn]
    | bytes patterns => simp [hstring, hcolumn]
    | boolean wanted =>
      have hboolean : field.family = .boolean := Values.of_fits hvalues
      rcases hfamily with hfamily | hfamily <;> rw [hboolean] at hfamily <;> cases hfamily
  | cell cell hfits hyears =>
    unfold equalityHeld equalityCondition
    cases values with
    | uuids ids =>
      have hfamily : field.family = .uuid := Values.of_fits hvalues
      rw [hfamily] at hfits
      obtain ⟨id, rfl⟩ : ∃ id, cell = .uuid id := Cell.of_fits hfits
      simp [hcolumn, Cell.wire, Cell.stored, RawValue.string, idValue]
    | texts wanted =>
      by_cases hjson : field.family = .jsonValue
      · rw [hjson] at hfits
        obtain ⟨j, rfl⟩ : ∃ j, cell = .value j := Cell.of_fits hfits
        have hcast : (castText field.key).eval (sqlite letter other) row = .text (jsonText j) := by
          show sqliteCall other "CAST(? AS TEXT)" [row field.key] = _
          rw [hvalue]
          exact hother.castText _
        simp [hjson, matchOneOf_true, hcast, Cell.wire]
      · obtain ⟨text, rfl⟩ := (Values.of_fits hvalues).2.resolve_left hjson cell hfits
        simp [hjson, hcolumn, Cell.wire, Cell.stored, RawValue.string]
    | stamps stamps =>
      have hfamily : field.family = .timestamp := Values.of_fits hvalues
      rw [hfamily] at hfits
      obtain ⟨t, rfl⟩ : ∃ t, cell = .timestamp t := Cell.of_fits hfits
      have ht := hyears t rfl
      simp [hcolumn, Cell.wire, Cell.stored, RawValue.string, recordTimestamp, parseRfc3339_toWire ht,
        timestampValue, eq_comm, timestampText_injective.eq_iff]
    | bytes patterns =>
      have hfamily : field.family = .bytes := Values.of_fits hvalues
      rw [hfamily] at hfits
      obtain ⟨bytes, rfl⟩ : ∃ bytes, cell = .bytes bytes := Cell.of_fits hfits
      simp [hcolumn, Cell.wire, Cell.stored, RawValue.string, latin1Encode_decode]
    | boolean wanted =>
      have hfamily : field.family = .boolean := Values.of_fits hvalues
      rw [hfamily] at hfits
      obtain ⟨b, rfl⟩ : ∃ b, cell = .boolean b := Cell.of_fits hfits
      show _ ↔ compareValues .eq (row field.key) (booleanValue wanted .sqliteText) = some true
      rw [hvalue, compareValues_eq_true]
      cases b <;> cases wanted <;> simp [Cell.wire, Cell.stored, RawValue.boolean, booleanValue]

/-! ## 4. Operations -/

theorem matchTextPatterns_text {key : String} {value : Text} (h : row key = .text value)
    (kind : OperationKind) {patterns : List Text} (hne : patterns ≠ []) :
    (matchTextPatterns (.column key) kind patterns .sqliteText false).eval (sqlite letter other) rows row =
      some (patterns.any (textMatches value kind)) := by
  obtain ⟨pattern, patterns, rfl⟩ := List.exists_cons_of_ne_nil hne
  unfold matchTextPatterns
  split
  case isTrue hempty =>
    have hpattern : pattern = [] := by simpa using (List.all_eq_true.mp hempty) pattern List.mem_cons_self
    have hmatch : textMatches value kind [] = true := by
      cases kind <;> simp [textMatches]
    rw [hpattern, List.any_cons, hmatch]
    rfl
  case isFalse =>
    exact foldl_or_definite patterns _ _ (eval_textPattern_sqlite letter _ rows h kind pattern)
      fun p _ => eval_textPattern_sqlite letter _ rows h kind p

theorem matchTextPatterns_null {key : String} (h : row key = .null) (kind : OperationKind)
    {patterns : List Text} (hempty : patterns.all (·.isEmpty) = false) :
    (matchTextPatterns (.column key) kind patterns .sqliteText false).eval (sqlite letter other) rows row ≠
      some true := by
  have hunknown : ∀ pattern, (textPattern (.column key) kind false pattern .sqliteText).eval
      (sqlite letter other) rows row = none := by
    intro pattern
    show matchValues _ _ (row key) _ = none
    rw [h]
    rfl
  unfold matchTextPatterns
  rw [if_neg (by simp [hempty])]
  cases patterns with
  | nil => cases hempty
  | cons pattern patterns =>
    show (List.foldl Condition.or _ _).eval _ rows row ≠ some true
    intro htrue
    rcases (foldl_or_true _ _).mp htrue with htrue | ⟨c, hc, htrue⟩
    · rw [hunknown] at htrue
      cases htrue
    · obtain ⟨p, -, rfl⟩ := List.mem_map.mp hc
      rw [hunknown] at htrue
      cases htrue

theorem matchBytesPatterns_blob {key : String} {value : List UInt8} (h : row key = .blob value)
    (kind : OperationKind) {patterns : List (List UInt8)} (hne : patterns ≠ []) :
    (matchBytesPatterns key kind patterns .sqliteText).eval (sqlite letter other) rows row =
      some (patterns.any (bytesMatch value kind)) := by
  obtain ⟨pattern, patterns, rfl⟩ := List.exists_cons_of_ne_nil hne
  exact foldl_or_definite patterns _ _ (eval_bytesPattern_sqlite letter other rows h kind pattern)
    fun p _ => eval_bytesPattern_sqlite letter other rows h kind p

/-- **An operation.** Empty patterns select a column that is NULL, and the matcher does not. -/
theorem operation_agrees {operation : FieldOperation} {held : OperationFilter}
    (h : Carried jsonText field.family (row field.key) raw)
    (hfits : held.values.fitsOperation field.family = true) (hjson : field.family ≠ .json)
    (hsensitive : operation.insensitive = false)
    (hempty : ∀ patterns, held.values = .texts patterns → patterns.all (·.isEmpty) = true →
      row field.key ≠ .null) : operationHeld lower field operation raw held = true ↔
      selects (sqlite letter other) rows (Conditions.operationCondition field operation held .sqliteText) row =
        true := by
  generalize hvalue : row field.key = value at h
  have hfold : ∀ text, fold lower text operation.insensitive = text := by
    intro text
    rw [hsensitive]
    rfl
  unfold operationHeld Conditions.operationCondition
  cases hvalues : held.values with
  | texts patterns =>
    rw [hvalues] at hfits
    obtain ⟨hne, htext⟩ := Values.of_fitsOperation hfits
    simp only [hjson, if_false, hsensitive, selects_iff, List.mem_singleton, forall_eq]
    cases h with
    | null _ hraw hfamily =>
      have hnot : patterns.all (·.isEmpty) = false := by
        by_contra hall
        exact hempty patterns hvalues (by simpa using hall) hvalue
      rw [string_of_null hraw]
      exact iff_of_false (by simp) (matchTextPatterns_null hvalue held.kind hnot)
    | cell cell hcell hyears =>
      obtain ⟨text, rfl⟩ := htext.resolve_left hjson cell hcell
      rw [matchTextPatterns_text hvalue held.kind hne]
      simp [Cell.wire, RawValue.string, fold]
  | bytes patterns =>
    rw [hvalues] at hfits
    obtain ⟨hne, hfamily⟩ := Values.of_fitsOperation hfits
    simp only [selects_iff, List.mem_singleton, forall_eq]
    obtain ⟨cell, hcell, -, rfl, rfl⟩ := h.exists_cell (by simp [hfamily])
    rw [hfamily] at hcell
    obtain ⟨bytes, rfl⟩ : ∃ bytes, cell = .bytes bytes := Cell.of_fits hcell
    rw [matchBytesPatterns_blob hvalue held.kind hne]
    simp [Cell.wire, RawValue.string, latin1Encode_decode]
  | _ =>
    rw [hvalues] at hfits
    exact (Values.of_fitsOperation hfits).elim

/-! ## 5. Addresses and levels -/

/-- **The selector.** -/
theorem address_agrees (selector : AddressSelector) {root : Option Text}
    (hroot : ∀ r ∈ root, validAddress r = true)
    (h : Carried jsonText field.family (row field.key) raw) (hfamily : field.family = .address) :
    ((raw.bind RawValue.string).any fun text => selector.matches text root) = true ↔
      (selector.condition field.key root .sqliteText).eval (sqlite letter other) rows row = some true := by
  obtain ⟨cell, hcell, -, hvalue, rfl⟩ := h.exists_cell (by simp [hfamily])
  rw [hfamily] at hcell
  obtain ⟨text, rfl⟩ : ∃ text, cell = .text text := Cell.of_fits hcell
  have heval := AddressSelector.condition_eval letter (sqliteCall other) rows selector hroot hvalue
    .sqliteText
  rw [heval]
  simp [Cell.wire, RawValue.string]

/-- A level's position tells which of the names stand from a bound on, and up to it. -/
theorem mem_levels {text : Text} (h : levels.contains text = true) : ∃ position,
    levelPosition text = some position ∧ (∀ minimum, text ∈ levels.drop minimum ↔ minimum ≤ position) ∧
      ∀ maximum, text ∈ levels.take (maximum + 1) ↔ position ≤ maximum := by
  have hmem : text ∈ levels := List.contains_iff_mem.mp h
  have hnodup : levels.Nodup := by decide
  obtain ⟨position, hlength, hget⟩ := List.mem_iff_getElem.mp hmem
  have hindex : ∀ (i : Nat) (hi : i < levels.length), levels[i] = text ↔ i = position := by
    intro i hi
    rw [← hget]
    exact hnodup.getElem_inj_iff
  refine ⟨position, ?_, fun minimum => ?_, fun maximum => ?_⟩
  · rw [levelPosition, List.findIdx?_eq_some_iff_getElem]
    refine ⟨hlength, by simpa using hget, fun i hi => ?_⟩
    have hne := (hindex i (by omega)).not.mpr (by omega)
    simpa using hne
  · rw [List.mem_drop_iff_getElem]
    constructor
    · intro hdrop
      obtain ⟨i, hi, heq⟩ := hdrop
      have := (hindex (minimum + i) (by omega)).mp heq
      omega
    · intro hle
      refine ⟨position - minimum, by omega, ?_⟩
      simp only [Nat.add_sub_cancel' hle]
      exact hget
  · rw [List.mem_take_iff_getElem]
    constructor
    · intro htake
      obtain ⟨i, hi, heq⟩ := htake
      have := (hindex i (by omega)).mp heq
      omega
    · intro hle
      exact ⟨position, by omega, hget⟩

/-- **The bounds of a level field.** -/
theorem level_agrees {own : Conditions} (h : Carried jsonText field.family (row field.key) raw)
    (hfamily : field.family = .level) : own.levelHeld (raw.bind RawValue.string) = true ↔
      selects (sqlite letter other) rows (own.levelConditions field.key) row = true := by
  obtain ⟨cell, hcell, -, hvalue, rfl⟩ := h.exists_cell (by simp [hfamily])
  rw [hfamily] at hcell
  obtain ⟨text, rfl⟩ : ∃ text, cell = .text text := Cell.of_fits hcell
  obtain ⟨position, hposition, hdrop, htake⟩ := mem_levels hcell
  have hcolumn : ∀ wanted : List Text, (Condition.isIn (.column field.key) (wanted.map .text)).eval
      (sqlite letter other) rows row = some true ↔ text ∈ wanted := by
    intro wanted
    show amongValues (row field.key) _ = some true ↔ _
    rw [hvalue, amongValues_true]
    simp [Cell.stored]
  have hstring : (some (RawValue.mk (jsonText (Cell.text text).wire) (Cell.text text).wire)).bind
      RawValue.string = some text := rfl
  rw [hstring]
  unfold Conditions.levelHeld Conditions.levelConditions
  rw [selects_append, Option.bind_some, hposition]
  cases own.minLevel <;> cases own.maxLevel <;>
    simp [selects_iff, hcolumn, hdrop, htake, -List.map_take, -List.map_drop]

end Field

/-! ## 6. Instants -/

/-- An instant that is computed, and whose stored text is not behind that of every year. -/
def Ordered (t : Int) : Prop := NAIVE_MIN ≤ t ∧ (dateOf t).year ≤ 9999

theorem instant_of_ordered {t : Int} (h : Ordered t) : instant t = some t := by
  refine if_pos ⟨h.1, ?_⟩
  by_contra hlate
  have hyear := year_mono (not_le.mp hlate).le
  have hlast : (dateOf NAIVE_MAX).year = 262142 := by decide
  have hearly := h.2
  omega

theorem yearsOrdered_of_ordered {t u : Int} (ht : InYears t) (hu : Ordered u) : YearsOrdered t u :=
  ⟨fun hlt => .inl ⟨ht.1.trans hlt.le, hu.2⟩, fun _ => .inl ht⟩

theorem compareValues_integer_lt (a b : Int) :
    compareValues .lt (.integer a) (.integer b) = some (decide (a < b)) := by
  rw [compareValues, if_neg (by simp), Option.some.injEq]
  show (cmp (Value.integer a).key (Value.integer b).key == .lt) = decide (a < b)
  rw [Bool.eq_iff_iff, beq_iff_eq, cmp_eq_lt_iff, decide_eq_true_iff]
  simp [Value.key, Prod.Lex.lt_iff]

theorem compareValues_integer_ge (a b : Int) :
    compareValues .ge (.integer a) (.integer b) = some (decide (b ≤ a)) := by
  rw [compareValues, if_neg (by simp), Option.some.injEq]
  show (cmp (Value.integer a).key (Value.integer b).key != .lt) = decide (b ≤ a)
  rw [Bool.eq_iff_iff, bne_iff_ne, ne_eq, cmp_eq_lt_iff, decide_eq_true_iff]
  simp [Value.key, Prod.Lex.lt_iff]

section Window

variable {own : Conditions} {now t : Int} {rows : List Row} {row : Row} {key : String}
  {letter : Char → Char} {other : String → List Value → Value}

/-- **One window of the clock.** -/
theorem clock_agrees {part : ClockPart} {after before : Option Nat} {span value : Nat}
    (hvalue : (clockPart key part .sqliteText).eval (sqlite letter other) row = .integer value) :
    clockHeld after before span value = true ↔
      selects (sqlite letter other) rows (Conditions.clockCondition key .sqliteText part after before span)
        row = true := by
  unfold clockHeld Conditions.clockCondition
  cases clockWindow after before span with
  | none => simp [selects]
  | some window =>
    obtain ⟨minimum, maximum, contiguous⟩ := window
    have hminimum : (Condition.compare .ge (clockPart key part .sqliteText)
        (.value (.integer minimum))).eval (sqlite letter other) rows row = some (decide (minimum ≤ value)) := by
      show compareValues .ge _ _ = _
      rw [hvalue]
      simp [Term.eval, compareValues_integer_ge]
    have hmaximum : (Condition.compare .lt (clockPart key part .sqliteText)
        (.value (.integer maximum))).eval (sqlite letter other) rows row = some (decide (value < maximum)) := by
      show compareValues .lt _ _ = _
      rw [hvalue]
      simp [Term.eval, compareValues_integer_lt]
    rw [selects_iff]
    simp only [List.mem_singleton, forall_eq]
    cases contiguous with
    | true =>
      show _ ↔ Truth.and _ _ = some true
      rw [hminimum, hmaximum]
      simp
    | false =>
      show _ ↔ Truth.or _ _ = some true
      rw [hminimum, hmaximum]
      simp

end Window

/-! ## 7. Computed predicates -/

theorem computed_column : ∀ table : Table, ∀ predicate ∈ table.schema.computed,
    ∃ field ∈ table.schema.fields, field.key = predicate.column ∧
      (predicate.shape = .present ∧ field.family = .uuid ∨
        predicate.shape ≠ .present ∧ (field.family = .text ∨ field.family = .plainAddress) ∧
          field.key ∉ table.schema.nullable) := by
  intro table
  cases table <;> decide

section Computed

variable {table : Table} {jsonText : Json → Text} {cells : String → Cell} {row : Row} {fields : Fields}
  {rows : List Row} {letter : Char → Char} {other : String → List Value → Value}

theorem matchTextPatterns_marker {key : String} {name : Text} (h : row key = .text name)
    (kind : OperationKind) : (matchTextPatterns (.column key) kind ["__".toList] .sqliteText false).eval
      (sqlite letter other) rows row = some (textMatches name kind "__".toList) := by
  rw [matchTextPatterns_text h kind (by simp)]
  simp

/-- **A computed predicate is definite**, so its opposite is too. -/
theorem shape_definite (hjson : JsonTexts jsonText) (h : Holds table jsonText cells row fields)
    {predicate : Computed} (hpredicate : predicate ∈ table.schema.computed) :
    (shapeCondition predicate .sqliteText).eval (sqlite letter other) rows row =
      some ((fields predicate.column).any (holds predicate.shape)) := by
  obtain ⟨field, hfield, hkey, hcolumn⟩ := computed_column table predicate hpredicate
  rw [← hkey]
  have hrow := h.row field hfield
  rcases hcolumn with ⟨hshape, hfamily⟩ | ⟨hshape, hfamily, hnullable⟩
  · rw [shapeCondition, hshape]
    show some (decide (row predicate.column ≠ .null)) = _
    rw [← hkey]
    have hcarried := h.carried hfield
    generalize row field.key = value at hcarried ⊢
    generalize fields field.key = raw at hcarried ⊢
    cases hcarried with
    | null _ hraw hnull =>
      rcases hraw with rfl | rfl
      · simp
      · simp [holds, hjson.null]
    | cell cell hcell hyears =>
      rw [hfamily] at hcell
      obtain ⟨id, rfl⟩ : ∃ id, cell = .uuid id := Cell.of_fits hcell
      have hraw := hjson.string (uuidText id)
      simpa [holds, Cell.stored, Cell.wire] using hraw
  · have hfits := (h.fits field hfield).resolve_right fun hnull => hnullable hnull.2
    obtain ⟨text, hcell⟩ : ∃ text, cells field.key = .text text := by
      rcases hfamily with hfamily | hfamily <;> rw [hfamily] at hfits <;> exact Cell.of_fits hfits
    have hraw := (h.fields field hfield).resolve_right fun hnull => by simp [hcell] at hnull
    rw [hcell] at hrow hraw
    have hstored : row field.key = .text text := hrow
    rw [hraw, Option.any_some]
    unfold shapeCondition
    cases hs : predicate.shape with
    | internal =>
      show Truth.and _ _ = _
      rw [← hkey, matchTextPatterns_marker hstored, matchTextPatterns_marker hstored]
      show Truth.and (some _) (some _) = some (_ && _)
      cases textMatches text .starts "__".toList <;> rfl
    | literal wanted =>
      show compareValues .eq (row predicate.column) (.text wanted) = _
      rw [← hkey, hstored, compareValues_text_eq]
      simp [holds, Cell.wire, RawValue.string, beq_eq_decide]
    | present => exact absurd hs hshape

/-- **A computed condition.** -/
theorem computed_agrees (hjson : JsonTexts jsonText) (h : Holds table jsonText cells row fields)
    {predicate : Computed × Bool} (hpredicate : predicate.1 ∈ table.schema.computed) :
    (fields predicate.1.column).any (holds predicate.1.shape) = predicate.2 ↔
      (Conditions.computedCondition .sqliteText predicate).eval (sqlite letter other) rows row = some true := by
  have hdefinite := @shape_definite table jsonText cells row fields rows letter other hjson h predicate.1
    hpredicate
  obtain ⟨computed, sense⟩ := predicate
  unfold Conditions.computedCondition
  cases sense with
  | true =>
    show _ ↔ (shapeCondition computed .sqliteText).eval _ _ _ = _
    rw [hdefinite, Option.some.injEq]
  | false =>
    show _ ↔ Truth.not ((shapeCondition computed .sqliteText).eval _ _ _) = _
    rw [hdefinite, Truth.not_true, Option.some.injEq]

end Computed

/-! ## 8. One node -/

theorem field_of_key : ∀ table : Table, ∀ field ∈ table.schema.fields, ∀ other ∈ table.schema.fields,
    field.key = other.key → field = other := by
  intro table
  cases table <;> decide

/-- The conditions of the comparison: no subsampling, and no operation that folds case or matches within
    JSON text. -/
structure Conditions.InScope (schema : Schema) (own : Conditions) : Prop where
  every : own.subsampleEvery = none
  count : own.subsample = none
  operations : ∀ field ∈ schema.fields, ∀ operation ∈ field.operations,
    (own.operationOf field operation).isSome = true →
      operation.insensitive = false ∧ field.family ≠ .json

/-- Where a node's conditions read alike: the instants are ordered as their texts are, and patterns that are
    all empty are about a column that holds something. -/
structure Conditions.Agreeing (cells : String → Cell) (now : Int) (own : Conditions) : Prop where
  bounds : ∀ b ∈ own.bounds now, Ordered b
  patterns : ∀ o ∈ own.operations, ∀ patterns, o.values = .texts patterns →
    patterns.all (·.isEmpty) = true → cells o.field.key ≠ .null

section Own

variable {table : Table} {jsonText : Json → Text} {lower : Text → Text} {cells : String → Cell} {row : Row}
  {fields : Fields} {own : Conditions} {now : Int} {field : FilterField} (rows : List Row)
  (letter : Char → Char) (other : String → List Value → Value)

theorem equalities_agree (hother : SqliteFunctions other) (h : Holds table jsonText cells row fields)
    (hwell : own.WellFormed table.schema) (hfield : field ∈ table.schema.fields) :
    (own.valuesOf field).all (equalityHeld jsonText field (fields field.key)) = true ↔
      selects (sqlite letter other) rows
        ((own.valuesOf field).map (equalityCondition field .sqliteText)).toList row = true := by
  cases hvalues : own.valuesOf field with
  | none => simp [selects]
  | some values =>
    obtain ⟨e, he, rfl⟩ := Option.map_eq_some_iff.mp hvalues
    have hkey : e.1 = field.key := by simpa using List.find?_some he
    obtain ⟨f, hf, hfkey, hfits⟩ := hwell.equalities e (List.mem_of_find?_eq_some he)
    obtain rfl : f = field := field_of_key table f hf field hfield (hfkey.trans hkey)
    rw [Option.all_some, selects_iff]
    simpa using equality_agrees hother (h.carried hfield) hfits

theorem operations_agree (h : Holds table jsonText cells row fields)
    (hwell : own.WellFormed table.schema) (hscope : own.InScope table.schema)
    (hagreeing : own.Agreeing cells now) (hfield : field ∈ table.schema.fields) :
    own.operationsHeld lower field (fields field.key) = true ↔
      selects (sqlite letter other) rows (own.operationConditions field .sqliteText) row = true := by
  have hone : ∀ operation ∈ field.operations, ∀ held, own.operationOf field operation = some held →
      (operationHeld lower field operation (fields field.key) held = true ↔
        selects (sqlite letter other) rows
          (Conditions.operationCondition field operation held .sqliteText) row = true) := by
    intro operation hoperation held hheld
    have hmem : held ∈ own.operations := List.mem_of_find?_eq_some hheld
    have hkey : held.field.key = field.key ∧ held.kind = operation.kind := by
      simpa using List.find?_some hheld
    obtain ⟨hheldField, hfits⟩ := hwell.operations held hmem
    have hsame : held.field = field := field_of_key table _ hheldField field hfield hkey.1
    obtain ⟨hsensitive, hjson⟩ := hscope.operations field hfield operation hoperation (by simp [hheld])
    rw [hsame] at hfits
    refine operation_agrees (h.carried hfield) hfits hjson hsensitive fun patterns hvalues hempty => ?_
    have hcell := hagreeing.patterns held hmem patterns hvalues hempty
    rw [hsame] at hcell
    rw [h.row field hfield]
    cases hc : cells field.key <;> simp_all [Cell.stored]
  rw [Conditions.operationsHeld, List.all_eq_true, Conditions.operationConditions, selects_iff]
  constructor
  · intro hall c hc
    obtain ⟨operation, hoperation, hc⟩ := List.mem_flatMap.mp hc
    have hheldAll := hall operation hoperation
    cases hheld : own.operationOf field operation with
    | none =>
      rw [hheld] at hc
      cases hc
    | some held =>
      rw [hheld] at hc hheldAll
      exact selects_iff.mp ((hone operation hoperation held hheld).mp hheldAll) c hc
  · intro hall operation hoperation
    cases hheld : own.operationOf field operation with
    | none => rfl
    | some held =>
      refine (hone operation hoperation held hheld).mpr (selects_iff.mpr fun c hc => hall c ?_)
      refine List.mem_flatMap.mpr ⟨operation, hoperation, ?_⟩
      rw [hheld]
      exact hc

theorem addresses_agree (h : Holds table jsonText cells row fields)
    (hwell : own.WellFormed table.schema) (hfield : field ∈ table.schema.fields) :
    (decide (field.family = .address) && !own.address.all fun selector =>
        ((fields field.key).bind RawValue.string).any fun text => selector.matches text own.root) = false ↔
      selects (sqlite letter other) rows (if true = true ∧ field.family = .address then
        (own.address.map (·.condition field.key own.root .sqliteText)).toList else []) row = true := by
  by_cases hfamily : field.family = .address
  · rw [if_pos ⟨rfl, hfamily⟩]
    cases own.address with
    | none => simp [selects]
    | some selector =>
      have hone := @address_agrees jsonText letter other rows row (fields field.key) field selector own.root
        hwell.root (h.carried hfield) hfamily
      rw [selects_iff]
      simpa [hfamily] using hone
  · rw [if_neg fun hboth => hfamily hboth.2]
    simp [hfamily, selects]

theorem subsampleConditions_of_inScope (hscope : own.InScope table.schema) (key : String) :
    own.subsampleConditions key now .sqliteText = [] := by
  unfold Conditions.subsampleConditions
  rw [hscope.every, hscope.count]
  rfl

/-- **The timestamp.** -/
theorem timestamps_agree (hother : SqliteFunctions other) (h : Holds table jsonText cells row fields)
    (hscope : own.InScope table.schema) (hagreeing : own.Agreeing cells now)
    (hfield : field ∈ table.schema.fields) (hfamily : field.family = .timestamp) :
    (match recordTimestamp ((fields field.key).bind RawValue.string) with
      | none => some (!own.needsTimestamp)
      | some stamp => own.timestampMatches stamp now) = some true ↔
      selects (sqlite letter other) rows (own.windowConditions field.key now .sqliteText ++
        own.subsampleConditions field.key now .sqliteText ++ own.clockConditions field.key .sqliteText)
        row = true := by
  obtain ⟨cell, hcell, hyears, hvalue, hraw⟩ := (h.carried hfield).exists_cell (by simp [hfamily])
  rw [hfamily] at hcell
  obtain ⟨t, rfl⟩ : ∃ t, cell = .timestamp t := Cell.of_fits hcell
  have ht := hyears t rfl
  have hstamp : recordTimestamp ((some (RawValue.mk (jsonText (Cell.timestamp t).wire)
      (Cell.timestamp t).wire)).bind RawValue.string) = some t := parseRfc3339_toWire ht
  have hhour : (clockPart field.key .hour .sqliteText).eval (sqlite letter other) row = .integer (hourOf t) := by
    show sqliteCall other "CAST(? AS INTEGER)"
      [sqliteCall other "strftime" [.text "%H".toList, row field.key]] = _
    rw [hvalue]
    exact hother.hour t ht
  have hminute : (clockPart field.key .minute .sqliteText).eval (sqlite letter other) row =
      .integer (minuteOf t) := by
    show sqliteCall other "CAST(? AS INTEGER)"
      [sqliteCall other "strftime" [.text "%M".toList, row field.key]] = _
    rw [hvalue]
    exact hother.minute t ht
  rw [hraw, hstamp, subsampleConditions_of_inScope hscope, List.append_nil, selects_append,
    windowConditions_true hvalue fun b hb => yearsOrdered_of_ordered ht (hagreeing.bounds b hb)]
  show own.timestampMatches t now = some true ↔ _
  rw [timestampMatches_true fun b hb => instant_of_ordered (hagreeing.bounds b hb), clock_agrees hhour, clock_agrees hminute,
    Conditions.clockConditions, selects_append]

theorem and_reorder {a b c d e : Prop} (h : d ↔ e) : a ∧ c ∧ b ∧ d ↔ ((a ∧ b) ∧ c) ∧ e := by
  rw [h]
  tauto

/-- **One field.** -/
theorem field_agrees (hother : SqliteFunctions other) (h : Holds table jsonText cells row fields)
    (hwell : own.WellFormed table.schema) (hscope : own.InScope table.schema)
    (hagreeing : own.Agreeing cells now) (hfield : field ∈ table.schema.fields) :
    own.fieldMatches jsonText lower fields now field = some true ↔
      selects (sqlite letter other) rows (own.fieldConditions .sqliteText now true field) row = true := by
  unfold Conditions.fieldMatches Conditions.fieldConditions
  rw [selects_append, selects_append, selects_append, refused_iff, refused_iff, refused_iff,
    Bool.not_eq_false', Bool.not_eq_false', equalities_agree rows letter other hother h hwell hfield,
    operations_agree rows letter other h hwell hscope hagreeing hfield,
    addresses_agree rows letter other h hwell hfield]
  refine and_reorder ?_
  cases hf : field.family with
  | timestamp => exact timestamps_agree rows letter other hother h hscope hagreeing hfield hf
  | level =>
    show some _ = some true ↔ _
    rw [Option.some.injEq]
    exact level_agrees (h.carried hfield) hf
  | _ => exact iff_of_true rfl rfl

theorem allM_true {α : Type} {p : α → Option Bool} : ∀ {items : List α},
    items.allM p = some true ↔ ∀ item ∈ items, p item = some true
  | [] => iff_of_true rfl (by simp)
  | item :: items => by
      rw [List.allM, List.forall_mem_cons]
      cases hitem : p item with
      | none => exact iff_of_false (by simp) (by simp)
      | some held =>
        cases held with
        | false => exact iff_of_false (by simp) (by simp)
        | true =>
          show items.allM p = some true ↔ _
          rw [allM_true]
          simp

/-- **The conditions of one node**: the matcher finds them all held exactly when the compiled conditions
    select the row. -/
theorem own_agrees (hother : SqliteFunctions other) (hjson : JsonTexts jsonText)
    (h : Holds table jsonText cells row fields) (hwell : own.WellFormed table.schema)
    (hscope : own.InScope table.schema) (hagreeing : own.Agreeing cells now) :
    own.matchesOwn jsonText lower table.schema fields now = some true ↔
      selects (sqlite letter other) rows (own.compile table.schema .sqliteText now true) row = true := by
  have hcomputed : (own.computed.any fun predicate =>
      (fields predicate.1.column).any (holds predicate.1.shape) != predicate.2) = false ↔
      selects (sqlite letter other) rows (own.computed.map (Conditions.computedCondition .sqliteText)) row =
        true := by
    rw [selects_iff, List.any_eq_false]
    simp only [List.mem_map, forall_exists_index, and_imp, forall_apply_eq_imp_iff₂]
    refine forall₂_congr fun predicate hpredicate => ?_
    rw [← computed_agrees hjson h (hwell.computed predicate hpredicate)]
    simp
  have hfields : table.schema.fields.allM (own.fieldMatches jsonText lower fields now) = some true ↔
      selects (sqlite letter other) rows
        (table.schema.fields.flatMap (own.fieldConditions .sqliteText now true)) row = true := by
    rw [allM_true, selects_iff]
    simp only [List.mem_flatMap, forall_exists_index, and_imp]
    constructor
    · intro hall c f hf hc
      have hselects := (field_agrees rows letter other hother h hwell hscope hagreeing hf).mp (hall f hf)
      exact selects_iff.mp hselects c hc
    · intro hall f hf
      exact (field_agrees rows letter other hother h hwell hscope hagreeing hf).mpr
        (selects_iff.mpr fun c hc => hall c f hf hc)
  unfold Conditions.matchesOwn Conditions.compile
  rw [refused_iff, refused_iff, hcomputed, hfields, selects_append, selects_append, and_assoc]
  refine and_congr_left' ?_
  cases own.impossible <;> simp [selects_iff, Condition.eval]

end Own

/-! ## 9. Nodes with nothing of their own -/

/-- No condition of the node is about the field. -/
def Conditions.bareField (own : Conditions) (field : FilterField) : Bool :=
  (own.valuesOf field).isNone &&
    field.operations.all (fun operation => (own.operationOf field operation).isNone) &&
    match field.family with
    | .address => own.address.isNone
    | .timestamp => !own.needsTimestamp
    | .level => own.minLevel.isNone && own.maxLevel.isNone
    | _ => true

/-- The node sets no condition. -/
def Conditions.bare (schema : Schema) (own : Conditions) : Bool :=
  !own.impossible && own.computed.isEmpty && schema.fields.all own.bareField

mutual

/-- Neither the node nor one of its children sets a condition, and it has no `or` children. -/
def FilterNode.bare (schema : Schema) : FilterNode → Bool
  | .node own andChildren orChildren => own.bare schema && allBare schema andChildren && orChildren.isEmpty

def allBare (schema : Schema) : List FilterNode → Bool
  | [] => true
  | child :: children => child.bare schema && allBare schema children

end

section Bare

variable {schema : Schema} {own : Conditions} {now : Int} {field : FilterField}

theorem clockCondition_eq_nil {key : String} {part : ClockPart} {after before : Option Nat} {span : Nat}
    (h : Conditions.clockCondition key .sqliteText part after before span = []) :
    after = none ∧ before = none := by
  unfold Conditions.clockCondition clockWindow at h
  cases after <;> cases before <;> simp_all

theorem windowConditions_eq_nil {key : String} (h : own.windowConditions key now .sqliteText = []) :
    own.after = none ∧ own.before = none ∧ own.timespan = none ∧ own.maxAge = none ∧ own.minAge = none := by
  unfold Conditions.windowConditions at h
  simp only [List.append_eq_nil_iff, Option.toList_eq_nil_iff, Option.map_eq_none_iff] at h
  obtain ⟨⟨⟨⟨⟨hafter, hbefore⟩, hstart⟩, hend⟩, hmaxAge⟩, hminAge⟩ := h
  refine ⟨hafter, hbefore, ?_, hmaxAge, hminAge⟩
  unfold Conditions.timespanBounds at hstart
  rw [hafter, hbefore] at hstart
  cases htimespan : own.timespan with
  | none => rfl
  | some timespan => simp [htimespan] at hstart

theorem needsTimestamp_eq_false {key : String} (hwindow : own.windowConditions key now .sqliteText = [])
    (hclock : own.clockConditions key .sqliteText = []) : own.needsTimestamp = false := by
  obtain ⟨hafter, hbefore, htimespan, hmaxAge, hminAge⟩ := windowConditions_eq_nil hwindow
  obtain ⟨hhour, hminute⟩ := List.append_eq_nil_iff.mp hclock
  obtain ⟨hafterHour, hbeforeHour⟩ := clockCondition_eq_nil hhour
  obtain ⟨hafterMinute, hbeforeMinute⟩ := clockCondition_eq_nil hminute
  simp [Conditions.needsTimestamp, hafter, hbefore, htimespan, hmaxAge, hminAge, hafterHour, hbeforeHour,
    hafterMinute, hbeforeMinute]

theorem operationCondition_ne_nil {operation : FieldOperation} {held : OperationFilter}
    (h : held.values.fitsOperation held.field.family = true) :
    Conditions.operationCondition field operation held .sqliteText ≠ [] := by
  unfold Conditions.operationCondition
  cases hvalues : held.values with
  | texts | bytes => simp
  | _ =>
    rw [hvalues] at h
    exact (Values.of_fitsOperation h).elim

theorem bareField_of_nil (hwell : own.WellFormed schema)
    (h : own.fieldConditions .sqliteText now true field = []) : own.bareField field = true := by
  unfold Conditions.fieldConditions at h
  simp only [List.append_eq_nil_iff] at h
  obtain ⟨⟨⟨hvalues, hoperations⟩, haddress⟩, hfamily⟩ := h
  have hvalues : own.valuesOf field = none := by simpa using hvalues
  have hoperations : ∀ operation ∈ field.operations, own.operationOf field operation = none := by
    intro operation hoperation
    have hone := List.flatMap_eq_nil_iff.mp hoperations operation hoperation
    cases hheld : own.operationOf field operation with
    | none => rfl
    | some held =>
      rw [hheld] at hone
      have hmem : held ∈ own.operations := List.mem_of_find?_eq_some hheld
      exact absurd hone (operationCondition_ne_nil (hwell.operations held hmem).2)
  have hrest : (match field.family with
      | .address => own.address.isNone
      | .timestamp => !own.needsTimestamp
      | .level => own.minLevel.isNone && own.maxLevel.isNone
      | _ => true) = true := by
    cases hf : field.family with
    | address => simpa [hf] using haddress
    | timestamp =>
      rw [hf] at hfamily
      obtain ⟨hboth, hclock⟩ := List.append_eq_nil_iff.mp hfamily
      obtain ⟨hwindow, -⟩ := List.append_eq_nil_iff.mp hboth
      simp [needsTimestamp_eq_false hwindow hclock]
    | level =>
      rw [hf] at hfamily
      simpa [Conditions.levelConditions] using hfamily
    | _ => rfl
  unfold Conditions.bareField
  rw [hvalues, Bool.and_eq_true, Bool.and_eq_true]
  exact ⟨⟨rfl, List.all_eq_true.mpr fun operation hoperation => by simp [hoperations operation hoperation]⟩,
    hrest⟩

/-- **A node whose conditions compile to nothing sets none.** -/
theorem bare_of_nil (hwell : own.WellFormed schema) (h : own.compile schema .sqliteText now true = []) :
    own.bare schema = true := by
  unfold Conditions.compile at h
  simp only [List.append_eq_nil_iff, List.map_eq_nil_iff, List.flatMap_eq_nil_iff] at h
  obtain ⟨⟨himpossible, hcomputed⟩, hfields⟩ := h
  have himpossible : own.impossible = false := by
    cases hi : own.impossible <;> simp_all
  rw [Conditions.bare, himpossible, hcomputed]
  simpa using fun field hfield => bareField_of_nil hwell (hfields field hfield)

theorem allBare_iff : ∀ {children : List FilterNode}, allBare schema children = true ↔
    ∀ child ∈ children, child.bare schema = true
  | [] => by simp [allBare]
  | child :: children => by
      rw [allBare, Bool.and_eq_true, List.forall_mem_cons, allBare_iff]

theorem combinedAnds_eq_nil : ∀ {children : List FilterNode},
    combinedAnds schema .sqliteText now children = [] →
    ∀ child ∈ children, child.combined schema .sqliteText now = []
  | [], _ => by simp
  | child :: children, h => by
      obtain ⟨hchild, hchildren⟩ := List.append_eq_nil_iff.mp h
      exact List.forall_mem_cons.mpr ⟨hchild, combinedAnds_eq_nil hchildren⟩

theorem joinTerms_eq_nil {ands terms : List Condition} (h : joinTerms ands terms = []) :
    ands = [] ∧ terms = [] := by
  cases terms with
  | nil => exact ⟨h, rfl⟩
  | cons term terms =>
    unfold joinTerms at h
    cases hall : allOf ands <;> rw [hall] at h <;> cases h

/-- **A tree whose conditions compile to nothing sets none.** -/
theorem bare_of_combined_nil {node : FilterNode} (hwell : node.WellFormed schema)
    (h : node.combined schema .sqliteText now = []) : node.bare schema = true := by
  induction hwell with
  | node own andChildren orChildren hown _ _ ihands _ =>
    obtain ⟨hnil, hterms⟩ := joinTerms_eq_nil h
    obtain ⟨hcompile, hands⟩ := List.append_eq_nil_iff.mp hnil
    have hchildren := combinedAnds_eq_nil hands
    rw [FilterNode.bare, bare_of_nil hown hcompile, combinedOrs_eq_nil.mp hterms,
      allBare_iff.mpr fun child hchild => ihands child hchild (hchildren child hchild)]
    rfl

/-- A node that sets a condition, or has an `and` child that does, compiles to one. -/
theorem conditions_ne_nil {andChildren : List FilterNode} (hwell : own.WellFormed schema)
    (hands : ∀ child ∈ andChildren, child.WellFormed schema)
    (h : ¬ (own.bare schema = true ∧ allBare schema andChildren = true)) :
    own.compile schema .sqliteText now true ++ combinedAnds schema .sqliteText now andChildren ≠ [] := by
  intro hnil
  obtain ⟨hcompile, hcombined⟩ := List.append_eq_nil_iff.mp hnil
  exact h ⟨bare_of_nil hwell hcompile, allBare_iff.mpr fun child hchild =>
    bare_of_combined_nil (hands child hchild) (combinedAnds_eq_nil hcombined child hchild)⟩

end Bare

/-! ## 10. A tree -/

/-- Where a tree is read alike: every node's conditions are, and a node with `or` children sets a condition
    of its own or through its `and` children. -/
inductive FilterNode.Agreeing (schema : Schema) (cells : String → Cell) (now : Int) : FilterNode → Prop where
  | node (own : Conditions) (andChildren orChildren : List FilterNode) :
      own.Agreeing cells now →
      (own.bare schema = true ∧ allBare schema andChildren = true → orChildren = []) →
      (∀ child ∈ andChildren, child.Agreeing schema cells now) →
      (∀ child ∈ orChildren, child.Agreeing schema cells now) →
      (FilterNode.node own andChildren orChildren).Agreeing schema cells now

section Tree

variable {table : Table} {jsonText : Json → Text} {lower : Text → Text} {cells : String → Cell} {row : Row}
  {fields : Fields} {rows : List Row} {letter : Char → Char} {other : String → List Value → Value}
  {now : Int} {node : FilterNode}

theorem matchesOwn_of_agreeing {own : Conditions} (h : own.Agreeing cells now) :
    (own.matchesOwn jsonText lower table.schema fields now).isSome := by
  have hinstants := fun b hb => instant_of_ordered (h.bounds b hb)
  have holdest := ageBound_of_instant fun b hb =>
    hinstants b (mem_bounds.mpr (.inr (.inr (.inr (.inr (.inl hb))))))
  have hyoungest := ageBound_of_instant fun b hb =>
    hinstants b (mem_bounds.mpr (.inr (.inr (.inr (.inr (.inr hb))))))
  refine matchesOwn_isSome jsonText lower table.schema fields (timestampMatches_isSome ?_ ?_ ?_)
  · rw [checkedTimespanBounds_of_instant hinstants]
    rfl
  · rw [holdest]
    rfl
  · rw [hyoungest]
    rfl

theorem FilterNode.Agreeing.answers (h : node.Agreeing table.schema cells now) :
    node.All fun own => (own.matchesOwn jsonText lower table.schema fields now).isSome := by
  induction h with
  | node own andChildren orChildren hown _ _ _ ihands ihors =>
    exact .node own andChildren orChildren (matchesOwn_of_agreeing hown) ihands ihors

/-- **The matcher and the compiled conditions agree** on every stored row and every tree whose nodes are
    read alike. -/
theorem matches_iff_selects (hother : SqliteFunctions other) (hjson : JsonTexts jsonText)
    (h : Holds table jsonText cells row fields) (hwell : node.WellFormed table.schema)
    (hscope : node.All (Conditions.InScope table.schema))
    (hagreeing : node.Agreeing table.schema cells now) :
    node.matches jsonText lower table.schema fields now = some true ↔
      selects (sqlite letter other) rows (node.combined table.schema .sqliteText now) row = true := by
  induction hagreeing with
  | node own andChildren orChildren hown hbare hands hors ihands ihors =>
    cases hwell with
    | node _ _ _ hwellOwn hwellAnds hwellOrs =>
      obtain ⟨hscopeOwn, hscopeAnds, hscopeOrs⟩ := all_node_iff.mp hscope
      have hnode := FilterNode.Agreeing.node own andChildren orChildren hown hbare hands hors
      have hown' := @own_agrees table jsonText lower cells row fields own now rows letter other hother hjson h
        hwellOwn hscopeOwn hown
      have hconditions : orChildren ≠ [] → own.compile table.schema .sqliteText now true ++
          combinedAnds table.schema .sqliteText now andChildren ≠ [] := fun hne =>
        conditions_ne_nil hwellOwn hwellAnds fun hboth => hne (hbare hboth)
      rw [matches_true jsonText lower table.schema fields now hnode.answers, combined_true, hown',
        and_iff_right hconditions]
      have hall : (∀ child ∈ andChildren,
          child.matches jsonText lower table.schema fields now = some true) ↔
          ∀ child ∈ andChildren, selects (sqlite letter other) rows
            (child.combined table.schema .sqliteText now) row = true :=
        forall₂_congr fun child hchild =>
          ihands child hchild (hwellAnds child hchild) (hscopeAnds child hchild)
      have hany : (∃ child ∈ orChildren,
          child.matches jsonText lower table.schema fields now = some true) ↔
          ∃ child ∈ orChildren, selects (sqlite letter other) rows
            (child.combined table.schema .sqliteText now) row = true :=
        exists_congr fun child => and_congr_right fun hchild =>
          ihors child hchild (hwellOrs child hchild) (hscopeOrs child hchild)
      rw [hall, hany]

end Tree

/-! ## 11. Rows on which they part, and on which they do not -/

/-- The functions that the conditions of a log call: casts, and the clock of a stored timestamp. -/
def plainFunctions (name : String) (args : List Value) : Value :=
  match name, args with
  | "CAST(? AS TEXT)", [.text text] => .text text
  | "strftime", [.text format, .text text] =>
    if format = "%H".toList then .text ((text.drop 11).take 2) else .text ((text.drop 14).take 2)
  | "CAST(? AS INTEGER)", [.text text] => .integer ((numeral text 0).getD 0)
  | _, _ => .null

theorem plainFunctions_spec : SqliteFunctions plainFunctions := by
  have hclock : ∀ t, InYears t → ((timestampText t).drop 11).take 2 = fixed 2 (hourOf t) ∧
      ((timestampText t).drop 14).take 2 = fixed 2 (minuteOf t) := by
    intro t ht
    rw [timestampText, secondText, yearText_plain ht, fixed_four]
    exact ⟨rfl, rfl⟩
  refine ⟨fun text => rfl, fun t ht => ?_, fun t ht => ?_⟩
  · have hhour := @numeral_fixed 2 (hourOf t) (by have := clock_range t; omega)
    show Value.integer ((numeral (((timestampText t).drop 11).take 2) 0).getD 0) = _
    rw [(hclock t ht).1, hhour]
    rfl
  · have hminute := @numeral_fixed 2 (minuteOf t) (by have := clock_range t; omega)
    show Value.integer ((numeral (((timestampText t).drop 14).take 2) 0).getD 0) = _
    rw [(hclock t ht).2, hminute]
    rfl

/-- The text of a null and of a string without characters to escape. -/
def plainJson : Json → Text
  | .null => "null".toList
  | .string text => '"' :: text ++ ['"']
  | _ => []

theorem plainJson_spec : JsonTexts plainJson := by
  refine ⟨rfl, fun text h => ?_⟩
  cases h

/-- A log record. -/
def logCells (t : Int) (level : Text) : String → Cell := fun key =>
  match key with
  | "id" => .uuid 0
  | "address" => .text "~".toList
  | "timestamp" => .timestamp t
  | "level" => .text level
  | "content" => .text "started".toList
  | _ => .null

/-- Its row. -/
def storedLog (t : Int) (level : Text) : Row := fun key => (logCells t level key).stored plainJson

/-- Its wire form. -/
def wireLog (t : Int) (level : Text) : Fields := fun key =>
  some ⟨plainJson (logCells t level key).wire, (logCells t level key).wire⟩

theorem holds_log {t : Int} (ht : InYears t) {level : Text} (hlevel : levels.contains level = true) :
    Holds .logs plainJson (logCells t level) (storedLog t level) (wireLog t level) where
  fits := by
    intro field hfield
    refine .inl ?_
    simp only [Table.schema, recordFields, List.cons_append, List.nil_append, List.mem_cons,
      List.not_mem_nil, or_false] at hfield
    rcases hfield with rfl | rfl | rfl | rfl | rfl
    · rfl
    · rfl
    · rfl
    · exact hlevel
    · rfl
  row := fun _ _ => rfl
  fields := fun _ _ => .inl rfl
  years := by
    intro field hfield u hcell
    simp only [Table.schema, recordFields, List.cons_append, List.nil_append, List.mem_cons,
      List.not_mem_nil, or_false] at hfield
    rcases hfield with rfl | rfl | rfl | rfl | rfl
    · cases hcell
    · cases hcell
    · obtain rfl : t = u := Cell.timestamp.inj hcell
      exact ht
    · cases hcell
    · cases hcell

/-- The logs of a level, as a node. -/
def atLevel (level : Text) : Conditions := { equalities := [("level", .texts [level])] }

theorem atLevel_wellFormed (level : Text) : (atLevel level).WellFormed Table.logs.schema :=
  ⟨by simp [atLevel, Table.schema, recordFields, field, Values.fits], by simp [atLevel], by simp [atLevel],
    by simp [atLevel], by simp [atLevel]⟩

theorem atLevel_inScope (level : Text) : (atLevel level).InScope Table.logs.schema :=
  ⟨rfl, rfl, by simp [atLevel, Conditions.operationOf]⟩

/-- `or=[level=error]` and nothing else: the matcher takes every log, the statement only the errors. -/
theorem or_group_alone_parts :
    (FilterNode.node {} [] [.node (atLevel "error".toList) [] []]).WellFormed Table.logs.schema ∧
    (FilterNode.node {} [] [.node (atLevel "error".toList) [] []]).All
      (Conditions.InScope Table.logs.schema) ∧
    Holds .logs plainJson (logCells 0 "info".toList) (storedLog 0 "info".toList)
      (wireLog 0 "info".toList) ∧
    (FilterNode.node {} [] [.node (atLevel "error".toList) [] []]).matches plainJson id Table.logs.schema
      (wireLog 0 "info".toList) 0 = some true ∧
    selects (sqlite id plainFunctions) [] ((FilterNode.node {} [] [.node (atLevel "error".toList) [] []]).combined
      Table.logs.schema .sqliteText 0) (storedLog 0 "info".toList) = false := by
  refine ⟨?_, ?_, holds_log (by decide) (by decide), by rfl, by decide⟩
  · refine .node _ _ _ ⟨by simp, by simp, by simp, by simp, by simp⟩ (by simp) ?_
    intro child hchild
    obtain rfl := List.mem_singleton.mp hchild
    exact .node _ _ _ (atLevel_wellFormed _) (by simp) (by simp)
  · refine .node _ _ _ ⟨rfl, rfl, by simp [Conditions.operationOf]⟩ (by simp) ?_
    intro child hchild
    obtain rfl := List.mem_singleton.mp hchild
    exact .node _ _ _ (atLevel_inScope _) (by simp) (by simp)

/-- `level=warning` or `level=error`, on an error. -/
theorem either_level_agrees :
    (FilterNode.node (atLevel "warning".toList) [] [.node (atLevel "error".toList) [] []]).matches plainJson
        id Table.logs.schema (wireLog 0 "error".toList) 0 = some true ↔
      selects (sqlite id plainFunctions) []
        ((FilterNode.node (atLevel "warning".toList) [] [.node (atLevel "error".toList) [] []]).combined
          Table.logs.schema .sqliteText 0) (storedLog 0 "error".toList) = true := by
  refine matches_iff_selects plainFunctions_spec plainJson_spec
    (holds_log (by decide) (by decide)) ?_ ?_ ?_
  · refine .node _ _ _ (atLevel_wellFormed _) (by simp) ?_
    intro child hchild
    obtain rfl := List.mem_singleton.mp hchild
    exact .node _ _ _ (atLevel_wellFormed _) (by simp) (by simp)
  · refine .node _ _ _ (atLevel_inScope _) (by simp) ?_
    intro child hchild
    obtain rfl := List.mem_singleton.mp hchild
    exact .node _ _ _ (atLevel_inScope _) (by simp) (by simp)
  · have hagreeing : ∀ level, (atLevel level).Agreeing (logCells 0 "error".toList) 0 := fun level =>
      ⟨by simp [Conditions.bounds, atLevel, Conditions.timespanBounds], by simp [atLevel]⟩
    refine .node _ _ _ (hagreeing _) (fun h => absurd h.1 (by decide)) (by simp) ?_
    intro child hchild
    obtain rfl := List.mem_singleton.mp hchild
    exact .node _ _ _ (hagreeing _) (by simp) (by simp) (by simp)

end Ceres.Database
