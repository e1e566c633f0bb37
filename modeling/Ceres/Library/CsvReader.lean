/-
  File:      Ceres/Library/CsvReader.lean
  Subject:   A READER OF COMMA-SEPARATED TEXT.

  A record is a line of fields between commas. A field in double quotes holds anything, a quote in it doubled.
  A line ends at a newline, a carriage return or both, and the last one at the end of the text; a blank line
  is no record.

  * `Mode`, `step`, `finish` -- the reader's machine, a character at a time; `read` -- the records of a text;
  * `Writes` -- a text that the machine takes for a field, whatever follows; `writes_plain`, `writes_quoted`;
  * **`read_record`** -- fields so written, between commas and with a newline behind, are read as one record.
-/
import Mathlib.Tactic

namespace Ceres.Library.CsvReader

/-! ## 1. The machine -/

inductive Mode where
  | startRecord
  | startField
  | inField
  | inQuotedField
  /-- Behind a quote in a quoted field: its end, or the first of two. -/
  | behindQuote
  /-- Behind a carriage return that ended a record. -/
  | behindReturn
deriving DecidableEq

/-- The field so far, and the fields of the record before it. -/
structure State where
  mode : Mode
  field : List Char
  fields : List (List Char)

def start : State := ⟨.startRecord, [], []⟩

/-- A record is made of what was read of it. -/
def State.record (s : State) : List (List Char) := s.fields ++ [s.field]

/-- A character that is not in quotes. -/
def plainStep (s : State) (c : Char) : State × Option (List (List Char)) :=
  if c = ',' then (⟨.startField, [], s.record⟩, none)
  else if c = '\n' then (start, some s.record)
  else if c = '\r' then ({ start with mode := .behindReturn }, some s.record)
  else (⟨.inField, s.field ++ [c], s.fields⟩, none)

/-- The first character of a field. -/
def fieldStep (s : State) (c : Char) : State × Option (List (List Char)) :=
  if c = '"' then ({ s with mode := .inQuotedField }, none) else plainStep s c

/-- The first character of a record: the ends of blank lines are passed over. -/
def recordStep (s : State) (c : Char) : State × Option (List (List Char)) :=
  if c = '\n' ∨ c = '\r' then (start, none) else fieldStep s c

/-- One character, with the record it ends. -/
def step (s : State) (c : Char) : State × Option (List (List Char)) :=
  match s.mode with
  | .startRecord => recordStep s c
  | .startField => fieldStep s c
  | .inField => plainStep s c
  | .inQuotedField =>
    if c = '"' then ({ s with mode := .behindQuote }, none)
    else ({ s with field := s.field ++ [c] }, none)
  | .behindQuote =>
    if c = '"' then (⟨.inQuotedField, s.field ++ [c], s.fields⟩, none) else plainStep s c
  | .behindReturn => recordStep s c

/-- The record that the end of the text ends. -/
def finish (s : State) : Option (List (List Char)) :=
  match s.mode with
  | .startRecord => none
  | .behindReturn => none
  | _ => some s.record

def readFrom : State → List Char → List (List (List Char))
  | s, [] => (finish s).toList
  | s, c :: text => (step s c).2.toList ++ readFrom (step s c).1 text

/-- The records of a text. -/
def read (text : List Char) : List (List (List Char)) := readFrom start text

/-- A byte order mark. -/
def MARK : Char := Char.ofNat 0xFEFF

/-- A reader may take a byte order mark off the front of its input. -/
def dropMark : List Char → List Char
  | [] => []
  | c :: text => if c = MARK then text else c :: text

/-! ## 2. Fields -/

/-- The characters that a field is quoted for. -/
def special (c : Char) : Bool := c = '"' || c = ',' || c = '\n' || c = '\r'

/-- Where a field may end. -/
def Mode.atEnd : Mode → Bool
  | .startField => true
  | .inField => true
  | .behindQuote => true
  | _ => false

/-- The text is taken for the field, wherever one begins and whatever follows. -/
def Writes (text field : List Char) : Prop :=
  ∀ fields, ∃ mode : Mode, mode.atEnd = true ∧
    ∀ rest, readFrom ⟨.startField, [], fields⟩ (text ++ rest) = readFrom ⟨mode, field, fields⟩ rest

theorem plainStep_other {c : Char} (h : special c = false) (s : State) :
    plainStep s c = (⟨.inField, s.field ++ [c], s.fields⟩, none) := by
  simp only [special, Bool.or_eq_false_iff, decide_eq_false_iff_not] at h
  obtain ⟨⟨⟨_, hcomma⟩, hnewline⟩, hreturn⟩ := h
  rw [plainStep, if_neg hcomma, if_neg hnewline, if_neg hreturn]

theorem readFrom_inField {fields : List (List Char)} : ∀ {text : List Char}, text.any special = false →
    ∀ (field rest : List Char),
      readFrom ⟨.inField, field, fields⟩ (text ++ rest) = readFrom ⟨.inField, field ++ text, fields⟩ rest
  | [], _, field, rest => by rw [List.nil_append, List.append_nil]
  | c :: text, h, field, rest => by
      rw [List.any_cons, Bool.or_eq_false_iff] at h
      have hstep : step ⟨.inField, field, fields⟩ c = (⟨.inField, field ++ [c], fields⟩, none) :=
        plainStep_other h.1 _
      rw [List.cons_append, readFrom, hstep]
      show readFrom ⟨.inField, field ++ [c], fields⟩ (text ++ rest) = _
      rw [readFrom_inField h.2, List.append_assoc]
      rfl

/-- **A text without special characters** is taken for itself. -/
theorem writes_plain {text : List Char} (h : text.any special = false) : Writes text text := by
  intro fields
  cases text with
  | nil => exact ⟨.startField, rfl, fun _ => rfl⟩
  | cons c text =>
    rw [List.any_cons, Bool.or_eq_false_iff] at h
    have hquote : c ≠ '"' := fun hc => by simp [special, hc] at h
    have hstep : step ⟨.startField, [], fields⟩ c = (⟨.inField, [c], fields⟩, none) := by
      show fieldStep _ c = _
      rw [fieldStep, if_neg hquote, plainStep_other h.1]
      rfl
    refine ⟨.inField, rfl, fun rest => ?_⟩
    rw [List.cons_append, readFrom, hstep]
    exact readFrom_inField h.2 [c] rest

/-- A field's text between quotes, its own doubled. -/
def doubled (field : List Char) : List Char :=
  field.flatMap fun c => if c = '"' then ['"', '"'] else [c]

theorem readFrom_doubled (fields : List (List Char)) : ∀ (text field rest : List Char),
    readFrom ⟨.inQuotedField, field, fields⟩ (doubled text ++ rest) =
      readFrom ⟨.inQuotedField, field ++ text, fields⟩ rest
  | [], field, rest => by rw [doubled, List.flatMap_nil, List.nil_append, List.append_nil]
  | c :: text, field, rest => by
      have hrest := readFrom_doubled fields text (field ++ [c]) rest
      rw [List.append_assoc, List.singleton_append] at hrest
      rw [doubled, List.flatMap_cons, List.append_assoc, ← hrest]
      by_cases hc : c = '"'
      · -- the first quote leads behind it, the second back into the field
        subst hc
        rfl
      · rw [if_neg hc, List.singleton_append, readFrom]
        have hstep : step ⟨.inQuotedField, field, fields⟩ c = (⟨.inQuotedField, field ++ [c], fields⟩, none) :=
          if_neg hc
        rw [hstep]
        rfl

/-- **A quoted text** is taken for what its doubled quotes stand for. -/
theorem writes_quoted (field : List Char) : Writes ('"' :: doubled field ++ ['"']) field := by
  intro fields
  refine ⟨.behindQuote, rfl, fun rest => ?_⟩
  have hinner := readFrom_doubled fields field [] ('"' :: rest)
  rw [List.nil_append] at hinner
  rw [List.cons_append, List.cons_append, List.append_assoc, List.singleton_append]
  exact hinner

/-! ## 3. Records -/

section Record

variable {text field : List Char} {fields : List (List Char)}

theorem step_atEnd {mode : Mode} (hmode : mode.atEnd = true) {c : Char} (hc : c ≠ '"') :
    step ⟨mode, field, fields⟩ c = plainStep ⟨mode, field, fields⟩ c := by
  cases mode with
  | startField => exact if_neg hc
  | inField => rfl
  | behindQuote => exact if_neg hc
  | startRecord => exact absurd hmode Bool.false_ne_true
  | inQuotedField => exact absurd hmode Bool.false_ne_true
  | behindReturn => exact absurd hmode Bool.false_ne_true

theorem Writes.comma (h : Writes text field) (rest : List Char) :
    readFrom ⟨.startField, [], fields⟩ (text ++ ',' :: rest) =
      readFrom ⟨.startField, [], fields ++ [field]⟩ rest := by
  obtain ⟨mode, hmode, hread⟩ := h fields
  rw [hread, readFrom, step_atEnd hmode (by decide)]
  rfl

theorem Writes.newline (h : Writes text field) (rest : List Char) :
    readFrom ⟨.startField, [], fields⟩ (text ++ '\n' :: rest) = (fields ++ [field]) :: read rest := by
  obtain ⟨mode, hmode, hread⟩ := h fields
  rw [hread, readFrom, step_atEnd hmode (by decide)]
  rfl

end Record

theorem readFrom_fields : ∀ {texts record : List (List Char)}, List.Forall₂ Writes texts record →
    texts ≠ [] → ∀ (fields : List (List Char)) (rest : List Char),
      readFrom ⟨.startField, [], fields⟩ ([','].intercalate texts ++ '\n' :: rest) =
        (fields ++ record) :: read rest
  | [], _, _, hne, _, _ => absurd rfl hne
  | [text], _, .cons h .nil, _, fields, rest => by
      rw [List.intercalate_singleton]
      exact h.newline rest
  | text :: next :: texts, _, .cons (b := field) h hall, _, fields, rest => by
      rw [List.intercalate_cons_cons, List.append_assoc, List.append_assoc, List.singleton_append, h.comma,
        readFrom_fields hall (List.cons_ne_nil _ _), List.append_assoc, List.singleton_append]

/-- A line that does not begin with its end is a record. -/
theorem read_cons {c : Char} (hnewline : c ≠ '\n') (hreturn : c ≠ '\r') (text : List Char) :
    read (c :: text) = readFrom ⟨.startField, [], []⟩ (c :: text) := by
  have hstep : step start c = step ⟨.startField, [], []⟩ c := by
    show recordStep start c = fieldStep _ c
    rw [recordStep, if_neg (not_or.mpr ⟨hnewline, hreturn⟩)]
    rfl
  rw [read, readFrom, hstep, readFrom]

/-- **Fields between commas are one record**, unless the line is blank. -/
theorem read_record {texts record : List (List Char)} (h : List.Forall₂ Writes texts record) {c : Char}
    {line : List Char} (hline : [','].intercalate texts = c :: line) (hnewline : c ≠ '\n') (hreturn : c ≠ '\r')
    (rest : List Char) : read ([','].intercalate texts ++ '\n' :: rest) = record :: read rest := by
  have hne : texts ≠ [] := fun hnil => by simp [hnil] at hline
  rw [hline, List.cons_append, read_cons hnewline hreturn, ← List.cons_append, ← hline,
    readFrom_fields h hne, List.nil_append]

theorem read_blank (rest : List Char) : read ('\n' :: rest) = read rest := rfl

end Ceres.Library.CsvReader
