/-
  File:      Ceres/Exporter/Formats.lean
  Subject:   CSV AND JSON LINES (`exporter.py`: `ExportCsvWriter`, `ExportJsonLinesWriter`, `_compact`,
             `_finite`, `_parse_key`), for schemas that keep the key columns.

  * `compact` -- a value as compact JSON, which holds no newline;
  * `csvField`, `csvLine` -- a row; **`csvLine_unit`** -- its quotes balance at its end and at no
    newline before;
  * `parseUuid_uuidText` -- a UUID is read back from its text;
  * `csvWriter`, `jsonLinesWriter` -- the two writers.
-/
import Ceres.Exporter.LineWriter

namespace Ceres.Exporter

open Ceres.Library Ceres.Database Ceres.Data

/-! ## 1. Compact JSON -/

/-- A character inside a JSON string. -/
def escape (c : Char) : Text :=
  if c = '"' then ['\\', '"']
  else if c = '\\' then ['\\', '\\']
  else if c = '\n' then ['\\', 'n']
  else if c = '\r' then ['\\', 'r']
  else if c = '\t' then ['\\', 't']
  else if c.toNat = 8 then ['\\', 'b']
  else if c.toNat = 12 then ['\\', 'f']
  else if c.toNat < 32 then ['\\', 'u', '0', '0', hexDigit (c.toNat / 16), hexDigit (c.toNat % 16)]
  else [c]

def quote (text : Text) : Text := '"' :: text.flatMap escape ++ ['"']

def integerText : Int → Text
  | .ofNat n => Nat.toDigits 10 n
  | .negSucc n => '-' :: Nat.toDigits 10 (n + 1)

/-- The bits of a float that is not a number or not finite. -/
def finiteBits (bits : UInt64) : Bool := bits.toNat / 2 ^ 52 % 2 ^ 11 ≠ 2047

section Json

-- the shortest text that gives a finite float back
variable (floatText : UInt64 → Text)

mutual

/-- `json.dumps` without blanks and without escaping what is not ASCII. -/
def compact : Json → Text
  | .null => ['n', 'u', 'l', 'l']
  | .boolean b => if b then ['t', 'r', 'u', 'e'] else ['f', 'a', 'l', 's', 'e']
  | .integer n => integerText n
  | .float bits =>
    if finiteBits bits then floatText bits
    else if bits.toNat % 2 ^ 52 ≠ 0 then ['N', 'a', 'N']
    else if bits.toNat / 2 ^ 63 = 0 then ['I', 'n', 'f', 'i', 'n', 'i', 't', 'y']
    else ['-', 'I', 'n', 'f', 'i', 'n', 'i', 't', 'y']
  | .string s => quote s
  | .array items => '[' :: compactItems items ++ [']']
  | .object fields => Char.ofNat 123 :: compactFields fields ++ [Char.ofNat 125]

def compactItems : List Json → Text
  | [] => []
  | [item] => compact item
  | item :: items => compact item ++ ',' :: compactItems items

def compactFields : List (String × Json) → Text
  | [] => []
  | [field] => quote field.1.toList ++ ':' :: compact field.2
  | field :: fields => quote field.1.toList ++ ':' :: compact field.2 ++ ',' :: compactFields fields

end

theorem newline_not_mem_escape (c : Char) : '\n' ∉ escape c := by
  have hhex : ∀ n, n < 16 → hexDigit n ≠ '\n' := by decide
  unfold escape
  split_ifs with h1 h2 h3 h4 h5 h6 h7 h8
  · decide
  · decide
  · decide
  · decide
  · decide
  · decide
  · decide
  · have hhigh := hhex (c.toNat / 16) (by omega)
    have hlow := hhex (c.toNat % 16) (by omega)
    simp only [List.mem_cons, List.not_mem_nil, or_false, not_or]
    exact ⟨by decide, by decide, by decide, by decide, hhigh.symm, hlow.symm⟩
  · simpa using Ne.symm h3

theorem newline_not_mem_quote (text : Text) : '\n' ∉ quote text := by
  unfold quote
  simp only [List.cons_append, List.mem_cons, List.mem_append, List.mem_flatMap, List.not_mem_nil,
    or_false, not_or]
  refine ⟨by decide, ?_, by decide⟩
  rintro ⟨c, -, hc⟩
  exact newline_not_mem_escape c hc

theorem newline_not_mem_integerText (n : Int) : '\n' ∉ integerText n := by
  have hdigits : ∀ m, '\n' ∉ Nat.toDigits 10 m := by
    intro m hm
    have hdigit := Nat.isDigit_of_mem_toDigits (by decide) (by decide) hm
    exact absurd hdigit (by decide)
  cases n with
  | ofNat n => exact hdigits n
  | negSucc n =>
    simp only [integerText, List.mem_cons, not_or]
    exact ⟨by decide, hdigits (n + 1)⟩

variable {floatText}

mutual

/-- **Compact JSON is one line.** -/
theorem newline_not_mem_compact (hfloat : ∀ bits, '\n' ∉ floatText bits) :
    ∀ value : Json, '\n' ∉ compact floatText value
  | .null => by simp [compact]
  | .boolean b => by cases b <;> simp [compact]
  | .integer n => by
    rw [compact]
    exact newline_not_mem_integerText n
  | .float bits => by
    rw [compact]
    split_ifs
    · exact hfloat bits
    · decide
    · decide
    · decide
  | .string s => by
    rw [compact]
    exact newline_not_mem_quote s
  | .array items => by
    have hitems := newline_not_mem_compactItems hfloat items
    rw [compact]
    simp only [List.cons_append, List.mem_cons, List.mem_append, List.not_mem_nil, or_false, not_or]
    exact ⟨by decide, hitems, by decide⟩
  | .object fields => by
    have hfields := newline_not_mem_compactFields hfloat fields
    rw [compact]
    simp only [List.cons_append, List.mem_cons, List.mem_append, List.not_mem_nil, or_false, not_or]
    exact ⟨by decide, hfields, by decide⟩

theorem newline_not_mem_compactItems (hfloat : ∀ bits, '\n' ∉ floatText bits) :
    ∀ items : List Json, '\n' ∉ compactItems floatText items
  | [] => by simp [compactItems]
  | [item] => by
    rw [compactItems]
    exact newline_not_mem_compact hfloat item
  | item :: other :: items => by
    have hitem := newline_not_mem_compact hfloat item
    have hitems := newline_not_mem_compactItems hfloat (other :: items)
    rw [compactItems]
    · simp only [List.mem_append, List.mem_cons, not_or]
      exact ⟨hitem, by decide, hitems⟩
    · simp

theorem newline_not_mem_compactFields (hfloat : ∀ bits, '\n' ∉ floatText bits) :
    ∀ fields : List (String × Json), '\n' ∉ compactFields floatText fields
  | [] => by simp [compactFields]
  | [field] => by
    have hvalue := newline_not_mem_compact hfloat field.2
    rw [compactFields]
    simp only [List.mem_append, List.mem_cons, not_or]
    exact ⟨newline_not_mem_quote _, by decide, hvalue⟩
  | field :: other :: fields => by
    have hvalue := newline_not_mem_compact hfloat field.2
    have hfields := newline_not_mem_compactFields hfloat (other :: fields)
    rw [compactFields]
    · simp only [List.mem_append, List.mem_cons, not_or]
      exact ⟨⟨newline_not_mem_quote _, by decide, hvalue⟩, by decide, hfields⟩
    · simp

end

end Json

/-! ## 2. Rows of CSV -/

/-- `csv.writer` quotes a cell that holds a comma, a quote or an end of line, and doubles the quotes
    in it. -/
def csvField (cell : Text) : Text :=
  if cell.any fun c => c = ',' ∨ c = '"' ∨ c = '\r' ∨ c = '\n' then
    '"' :: cell.flatMap (fun c => if c = '"' then ['"', '"'] else [c]) ++ ['"']
  else cell

/-- The cells of a row, two at the least, with commas between them. -/
def csvCells : List Text → Text
  | [] => []
  | [cell] => csvField cell
  | cell :: cells => csvField cell ++ ',' :: csvCells cells

def csvLine (cells : List Text) : Text := csvCells cells ++ ['\n']

/-- Whether an odd number of quotes has been read, after some more. -/
def quoted : Bool → Text → Bool
  | inside, [] => inside
  | inside, c :: text => quoted (if c = '"' then !inside else inside) text

/-- Every newline stands inside quotes. -/
def sheltered : Bool → Text → Bool
  | _, [] => true
  | inside, c :: text => (c ≠ '\n' || inside) && sheltered (if c = '"' then !inside else inside) text

theorem quoted_append (inside : Bool) (a b : Text) : quoted inside (a ++ b) = quoted (quoted inside a) b := by
  induction a generalizing inside with
  | nil => rfl
  | cons c a ih => exact ih _

theorem sheltered_append (inside : Bool) (a b : Text) :
    sheltered inside (a ++ b) = (sheltered inside a && sheltered (quoted inside a) b) := by
  induction a generalizing inside with
  | nil => simp [sheltered, quoted]
  | cons c a ih => simp [sheltered, quoted, ih, Bool.and_assoc]

theorem shelter_doubled (cell : Text) :
    quoted true (cell.flatMap fun c => if c = '"' then ['"', '"'] else [c]) = true ∧
      sheltered true (cell.flatMap fun c => if c = '"' then ['"', '"'] else [c]) = true := by
  induction cell with
  | nil => exact ⟨rfl, rfl⟩
  | cons c cell ih =>
    rw [List.flatMap_cons, quoted_append, sheltered_append]
    by_cases hc : c = '"'
    · subst hc
      simpa [quoted, sheltered] using ih
    · simpa [quoted, sheltered, hc] using ih

theorem shelter_plain {cell : Text} (h : ∀ c ∈ cell, c ≠ ',' ∧ c ≠ '"' ∧ c ≠ '\r' ∧ c ≠ '\n') (inside : Bool) :
    quoted inside cell = inside ∧ sheltered inside cell = true := by
  induction cell with
  | nil => exact ⟨rfl, rfl⟩
  | cons c cell ih =>
    obtain ⟨-, hquote, -, hnewline⟩ := h c List.mem_cons_self
    have hrest := ih fun d hd => h d (List.mem_cons_of_mem _ hd)
    simpa [quoted, sheltered, hquote, hnewline] using hrest

theorem shelter_csvField (cell : Text) :
    quoted false (csvField cell) = false ∧ sheltered false (csvField cell) = true := by
  unfold csvField
  split
  · obtain ⟨hquoted, hsheltered⟩ := shelter_doubled cell
    rw [List.cons_append, quoted, sheltered, quoted_append, sheltered_append]
    simp [quoted, sheltered, hquoted, hsheltered]
  · rename_i hplain
    refine shelter_plain ?_ false
    intro c hc
    simp only [List.any_eq_true, decide_eq_true_eq, not_exists, not_and, not_or] at hplain
    exact hplain c hc

theorem shelter_csvCells (cells : List Text) :
    quoted false (csvCells cells) = false ∧ sheltered false (csvCells cells) = true := by
  induction cells with
  | nil => exact ⟨rfl, rfl⟩
  | cons cell cells ih =>
    obtain ⟨hquoted, hsheltered⟩ := shelter_csvField cell
    cases cells with
    | nil => exact ⟨hquoted, hsheltered⟩
    | cons other cells =>
      rw [csvCells, quoted_append, sheltered_append, hquoted, hsheltered]
      · simpa [quoted, sheltered] using ih
      · simp

theorem quoted_eq_count (text : Text) : quoted false text = decide (text.count '"' % 2 = 1) := by
  have hgeneral : ∀ (inside : Bool), quoted inside text = (inside ^^ decide (text.count '"' % 2 = 1)) := by
    induction text with
    | nil => intro inside; simp [quoted]
    | cons c text ih =>
      intro inside
      rw [quoted, ih]
      by_cases hc : c = '"'
      · subst hc
        rw [if_pos rfl, List.count_cons_self]
        have hmod : text.count '"' % 2 = 0 ∨ text.count '"' % 2 = 1 := by omega
        rcases hmod with hmod | hmod
        · have hnext : (text.count '"' + 1) % 2 = 1 := by omega
          cases inside <;> simp [hmod, hnext]
        · have hnext : (text.count '"' + 1) % 2 = 0 := by omega
          cases inside <;> simp [hmod, hnext]
      · rw [if_neg hc, List.count_cons_of_ne hc]
  simpa using hgeneral false

/-- `ExportCsvWriter.split`: a record ends where its quotes balance. -/
def balanced (bytes : List UInt8) : Bool := bytes.count 34 % 2 = 0

theorem balanced_utf8 (text : Text) : balanced (utf8 text) = !quoted false text := by
  have hcount : (utf8 text).count 34 = text.count '"' := count_utf8 (c := '"') (by decide) text
  rw [balanced, hcount, quoted_eq_count]
  have hmod : text.count '"' % 2 = 0 ∨ text.count '"' % 2 = 1 := by omega
  rcases hmod with hmod | hmod <;> simp [hmod]

theorem quoted_of_sheltered {before after : Text}
    (h : sheltered false (before ++ '\n' :: after) = true) : quoted false before = true := by
  rw [sheltered_append, Bool.and_eq_true] at h
  have hnewline := h.2
  rw [sheltered, Bool.and_eq_true] at hnewline
  simpa using hnewline.1

theorem newline_in_body {body before after : Text} (h : body ++ ['\n'] = before ++ '\n' :: after)
    (hafter : after ≠ []) : ∃ rest, body = before ++ '\n' :: rest := by
  rcases List.append_eq_append_iff.mp h with ⟨mid, -, hmid⟩ | ⟨mid, hbody, hmid⟩
  · have hlength := congrArg List.length hmid
    simp only [List.length_cons, List.length_nil, List.length_append] at hlength
    exact absurd (List.length_eq_zero_iff.mp (by omega)) hafter
  · cases mid with
    | nil => exact absurd (List.cons.inj hmid).2 hafter
    | cons m mid =>
      obtain ⟨rfl, -⟩ := List.cons.inj hmid
      exact ⟨mid, hbody⟩

/-- **A row is one record**: its quotes balance at its end and at no newline before. -/
theorem csvLine_unit (cells : List Text) : IsUnit balanced (utf8 (csvLine cells)) := by
  obtain ⟨hquoted, hsheltered⟩ := shelter_csvCells cells
  refine ⟨⟨utf8 (csvCells cells), ?_⟩, ?_, ?_⟩
  · rw [csvLine, utf8_append]
    rfl
  · rw [balanced_utf8, csvLine, quoted_append, hquoted]
    rfl
  · intro head tail hsplit hne
    obtain ⟨before, c, after, htext, hc, rfl, rfl⟩ := ascii_ends_text (by decide) _ head tail hsplit
    obtain rfl : c = '\n' := Char.toNat_inj.mp hc
    have hline : utf8 before ++ [10] = utf8 (before ++ ['\n']) := by
      rw [utf8_append]
      rfl
    -- what follows the newline is not empty, so the newline is one of the cells'
    obtain ⟨rest, hrest⟩ := newline_in_body htext fun h => hne (by rw [h, utf8_nil])
    rw [hrest] at hsheltered
    rw [hline, balanced_utf8, quoted_append, quoted_of_sheltered hsheltered]
    rfl

/-! ## 3. Keys -/

def hexValue (c : Char) : Option Nat :=
  if '0' ≤ c ∧ c ≤ '9' then some (c.toNat - 48)
  else if 'a' ≤ c ∧ c ≤ 'f' then some (c.toNat - 87)
  else if 'A' ≤ c ∧ c ≤ 'F' then some (c.toNat - 55)
  else none

/-- The number of some hexadecimal digits, behind what was read of it. -/
def hexNumber : Text → Nat → Option Nat
  | [], n => some n
  | c :: digits, n => (hexValue c).bind fun d => hexNumber digits (16 * n + d)

/-- `UUID(text)`, of the hyphenated form: 32 digits once the hyphens are gone. -/
def parseUuid (text : Text) : Option Uuid :=
  let digits := text.filter fun c => c ≠ '-'
  if digits.length = 32 then (hexNumber digits 0).map (BitVec.ofNat 128) else none

/-- `_parse_key`: a byte that is not ASCII fails like any other that does not belong. -/
def parseKey (timestamp id : List UInt8) : Except FileError ExportKey :=
  match parseRfc3339 (latin1Decode timestamp), parseUuid (latin1Decode id) with
  | some timestamp, some id => .ok ⟨timestamp, id⟩
  | _, _ => .error .value

theorem hexValue_hexDigit : ∀ n, n < 16 → hexValue (hexDigit n) = some n := by decide

theorem hexDigit_ne_hyphen : ∀ n, n < 16 → hexDigit n ≠ '-' := by decide

theorem hexNumber_append (a b : Text) (n : Nat) : hexNumber (a ++ b) n = (hexNumber a n).bind (hexNumber b) := by
  induction a generalizing n with
  | nil => rfl
  | cons c a ih =>
    rw [List.cons_append, hexNumber, hexNumber]
    cases hexValue c with
    | none => rfl
    | some d => exact ih (16 * n + d)

theorem hexNumber_uuidDigits (id : Uuid) : ∀ count, count ≤ 32 →
    hexNumber (uuidDigits id 0 count) 0 = some (id.toNat / 16 ^ (32 - count)) := by
  intro count
  induction count with
  | zero =>
    intro _
    have hzero : id.toNat / 16 ^ 32 = 0 := Nat.div_eq_of_lt id.isLt
    rw [Nat.sub_zero, hzero]
    rfl
  | succ count ih =>
    intro hcount
    have hsplit : uuidDigits id 0 (count + 1) =
        uuidDigits id 0 count ++ [hexDigit (id.toNat / 16 ^ (31 - count) % 16)] := by
      simp [uuidDigits, List.range_succ]
    have hpow : 16 ^ (32 - count) = 16 ^ (31 - count) * 16 := by
      rw [← pow_succ]
      congr 1
      omega
    have hexp : 32 - (count + 1) = 31 - count := by omega
    rw [hsplit, hexNumber_append, ih (by omega), Option.bind_some, hexNumber,
      hexValue_hexDigit _ (Nat.mod_lt _ (by decide)), Option.bind_some, hexNumber, hpow, hexp,
      ← Nat.div_div_eq_div_mul]
    congr 1
    omega

theorem uuidDigits_append (id : Uuid) (start a b : Nat) :
    uuidDigits id start a ++ uuidDigits id (start + a) b = uuidDigits id start (a + b) := by
  unfold uuidDigits
  rw [List.range_add, List.map_append, List.map_map]
  congr 1
  refine List.map_congr_left fun i _ => ?_
  rw [Function.comp_apply, Nat.add_assoc]

theorem filter_uuidDigits (id : Uuid) (start count : Nat) :
    (uuidDigits id start count).filter (fun c => decide (c ≠ '-')) = uuidDigits id start count := by
  refine List.filter_eq_self.mpr fun c hc => ?_
  obtain ⟨i, -, rfl⟩ := List.mem_map.mp hc
  exact decide_eq_true (hexDigit_ne_hyphen _ (Nat.mod_lt _ (by decide)))

/-- **A UUID is read back from its text.** -/
theorem parseUuid_uuidText (id : Uuid) : parseUuid (uuidText id) = some id := by
  have hdigits : (uuidText id).filter (fun c => decide (c ≠ '-')) = uuidDigits id 0 32 := by
    have hhyphen : ∀ text : Text, ('-' :: text).filter (fun c => decide (c ≠ '-')) =
        text.filter fun c => decide (c ≠ '-') := fun text => List.filter_cons_of_neg (by decide)
    rw [uuidText]
    simp only [List.filter_append, hhyphen, filter_uuidDigits, List.append_assoc]
    rw [uuidDigits_append id 16 4 12, uuidDigits_append id 12 4 16, uuidDigits_append id 8 4 20,
      uuidDigits_append id 0 8 24]
  have hlength : (uuidDigits id 0 32).length = 32 := by simp [uuidDigits]
  rw [parseUuid]
  simp only [hdigits, if_pos hlength, hexNumber_uuidDigits id 32 le_rfl]
  simp

/-- The characters of a timestamp and of a UUID: none that a row of CSV or a JSON string would write
    in another way. -/
def PlainChar (c : Char) : Prop :=
  c.toNat < 128 ∧ 32 ≤ c.toNat ∧ c ≠ ',' ∧ c ≠ '"' ∧ c ≠ '\\'

theorem plain_digit (n : Nat) : PlainChar (digit n) := by
  have hdigit := toNat_digit n
  have hne : ∀ c : Char, c.toNat < 48 ∨ 57 < c.toNat → digit n ≠ c := by
    rintro c hc rfl
    omega
  exact ⟨by omega, by omega, hne _ (by decide), hne _ (by decide), hne _ (by decide)⟩

theorem plain_fixed (width n : Nat) : ∀ c ∈ fixed width n, PlainChar c := by
  induction width generalizing n with
  | zero => simp [fixed]
  | succ width ih =>
    intro c hc
    rw [fixed, List.mem_append, List.mem_singleton] at hc
    rcases hc with hc | rfl
    · exact ih _ c hc
    · exact plain_digit n

theorem plain_append {a b : Text} (ha : ∀ c ∈ a, PlainChar c) (hb : ∀ c ∈ b, PlainChar c) :
    ∀ c ∈ a ++ b, PlainChar c := by
  intro c hc
  rcases List.mem_append.mp hc with hc | hc
  · exact ha c hc
  · exact hb c hc

theorem plain_cons {d : Char} {a : Text} (hd : PlainChar d) (ha : ∀ c ∈ a, PlainChar c) :
    ∀ c ∈ d :: a, PlainChar c := by
  intro c hc
  rcases List.mem_cons.mp hc with rfl | hc
  · exact hd
  · exact ha c hc

instance (c : Char) : Decidable (PlainChar c) := by
  unfold PlainChar
  infer_instance

theorem plain_toWire {t : Int} (h : InYears t) : ∀ c ∈ toWire t, PlainChar c := by
  have hsecond : ∀ c ∈ secondText 'T' t, PlainChar c := by
    rw [secondText, yearText_plain h]
    refine plain_append (plain_append (plain_append (plain_append (plain_append (plain_fixed _ _) ?_) ?_)
      ?_) ?_) ?_
    all_goals exact plain_cons (by decide) (plain_fixed _ _)
  have hend : ∀ c ∈ ['Z'], PlainChar c := plain_cons (by decide) (by simp)
  unfold toWire
  split
  · exact plain_append hsecond hend
  · exact plain_append (plain_append hsecond (plain_cons (by decide) (plain_fixed _ _))) hend

theorem plain_uuidText (id : Uuid) : ∀ c ∈ uuidText id, PlainChar c := by
  have hhex : ∀ n, n < 16 → PlainChar (hexDigit n) := by decide
  have hdigits : ∀ start count, ∀ c ∈ uuidDigits id start count, PlainChar c := by
    intro start count c hc
    obtain ⟨i, -, rfl⟩ := List.mem_map.mp hc
    exact hhex _ (Nat.mod_lt _ (by decide))
  refine plain_append (plain_append (plain_append (plain_append (hdigits _ _) ?_) ?_) ?_) ?_
  all_goals exact plain_cons (by decide) (hdigits _ _)

/-- ASCII text is read back byte by byte. -/
theorem latin1Decode_utf8 {text : Text} (h : ∀ c ∈ text, PlainChar c) : latin1Decode (utf8 text) = text := by
  induction text with
  | nil => rfl
  | cons c text ih =>
    have hc := (h c List.mem_cons_self).1
    have hbyte : (UInt8.ofNat c.toNat).toNat = c.toNat := by
      rw [UInt8.toNat_ofNat']
      omega
    have hrest := ih fun d hd => h d (List.mem_cons_of_mem _ hd)
    rw [utf8_cons, utf8EncodeChar_ascii hc]
    show Char.ofNat (UInt8.ofNat c.toNat).toNat :: latin1Decode (utf8 text) = c :: text
    rw [hbyte, hrest, Char.ofNat_toNat]

theorem mem_utf8_plain {text : Text} (h : ∀ c ∈ text, PlainChar c) {b : UInt8} (hb : b ∈ utf8 text) :
    32 ≤ b.toNat ∧ b ≠ 44 ∧ b ≠ 34 := by
  obtain ⟨c, hc, hmem⟩ := List.mem_flatMap.mp hb
  obtain ⟨hascii, hlow, hcomma, hquote, -⟩ := h c hc
  rw [utf8EncodeChar_ascii hascii, List.mem_singleton] at hmem
  subst hmem
  have hbyte : (UInt8.ofNat c.toNat).toNat = c.toNat := by
    rw [UInt8.toNat_ofNat']
    omega
  refine ⟨by omega, ?_, ?_⟩
  · intro heq
    rw [heq] at hbyte
    exact hcomma (Char.toNat_inj.mp hbyte.symm)
  · intro heq
    rw [heq] at hbyte
    exact hquote (Char.toNat_inj.mp hbyte.symm)

theorem parseKey_texts {k : ExportKey} (h : InYears k.timestamp) :
    parseKey (utf8 (toWire k.timestamp)) (utf8 (uuidText k.id)) = .ok k := by
  rw [parseKey, latin1Decode_utf8 (plain_toWire h), latin1Decode_utf8 (plain_uuidText k.id),
    parseRfc3339_toWire h, parseUuid_uuidText]

/-! ## 4. The writers -/

/-- `rstrip(b"\r\n")`. -/
def stripEnd (line : List UInt8) : List UInt8 :=
  (line.reverse.dropWhile fun b => decide (b = 13 ∨ b = 10)).reverse

/-- `ExportCsvWriter.key`: the first two cells. -/
def csvKey (line : List UInt8) : Except FileError ExportKey :=
  match (stripEnd line).dropWhile (fun b => decide (b ≠ 44)) with
  | [] => .error .value
  | _ :: rest =>
    parseKey ((stripEnd line).takeWhile fun b => decide (b ≠ 44))
      (rest.takeWhile fun b => decide (b ≠ 44))

theorem stripEnd_append {a : List UInt8} (hne : a ≠ []) (ha : ∀ b ∈ a, 32 ≤ b.toNat) (rest : List UInt8) :
    stripEnd (a ++ rest) = a ++ stripEnd rest := by
  have hkeep : a.reverse.dropWhile (fun b => decide (b = 13 ∨ b = 10)) = a.reverse := by
    have hrev : a.reverse ≠ [] := by simpa using hne
    obtain ⟨b, more, hmore⟩ := List.exists_cons_of_ne_nil hrev
    have hb : 32 ≤ b.toNat := ha b (by rw [← List.mem_reverse, hmore]; exact List.mem_cons_self)
    rw [hmore, List.dropWhile_cons_of_neg]
    simp only [decide_eq_true_eq, not_or]
    constructor <;> rintro rfl <;> exact absurd hb (by decide)
  unfold stripEnd
  rw [List.reverse_append, List.dropWhile_append, hkeep]
  split
  · rename_i hempty
    rw [List.isEmpty_iff] at hempty
    rw [hempty]
    simp
  · rw [List.reverse_append, List.reverse_reverse]

/-- Everything up to a byte that stands behind some others. -/
theorem takeWhile_stop {stop : UInt8} {a : List UInt8} (ha : ∀ b ∈ a, b ≠ stop) (rest : List UInt8) :
    (a ++ stop :: rest).takeWhile (fun b => decide (b ≠ stop)) = a ∧
      (a ++ stop :: rest).dropWhile (fun b => decide (b ≠ stop)) = stop :: rest := by
  have hpos : ∀ b ∈ a, decide (b ≠ stop) = true := fun b hb => decide_eq_true (ha b hb)
  rw [List.takeWhile_append_of_pos hpos, List.dropWhile_append_of_pos hpos]
  simp

theorem takeWhile_all {stop : UInt8} {a : List UInt8} (ha : ∀ b ∈ a, b ≠ stop) :
    a.takeWhile (fun b => decide (b ≠ stop)) = a := by
  have hpos : ∀ b ∈ a, decide (b ≠ stop) = true := fun b hb => decide_eq_true (ha b hb)
  have htake : (a ++ []).takeWhile (fun b => decide (b ≠ stop)) = a ++ [] := by
    rw [List.takeWhile_append_of_pos hpos]
    rfl
  rwa [List.append_nil] at htake

theorem csvField_plain {cell : Text} (h : ∀ c ∈ cell, PlainChar c) : csvField cell = cell := by
  unfold csvField
  rw [if_neg]
  simp only [List.any_eq_true, decide_eq_true_eq, not_exists, not_and, not_or]
  intro c hc
  obtain ⟨-, hlow, hcomma, hquote, -⟩ := h c hc
  refine ⟨hcomma, hquote, ?_, ?_⟩ <;> rintro rfl <;> exact absurd hlow (by decide)

theorem csvKey_line {k : ExportKey} (h : InYears k.timestamp) (cells : List Text) :
    csvKey (utf8 (csvLine (toWire k.timestamp :: uuidText k.id :: cells))) = .ok k := by
  have hwire := plain_toWire h
  have huuid := plain_uuidText k.id
  -- the line behind the two texts, once its end is stripped
  obtain ⟨rest, hline, hrest⟩ : ∃ rest, utf8 (csvLine (toWire k.timestamp :: uuidText k.id :: cells)) =
      utf8 (toWire k.timestamp) ++ 44 :: (utf8 (uuidText k.id) ++ rest) ∧
      (stripEnd rest = [] ∨ ∃ more, stripEnd rest = 44 :: more) := by
    cases cells with
    | nil =>
      refine ⟨[10], ?_, .inl (by decide)⟩
      rw [csvLine, csvCells, csvCells, csvField_plain hwire, csvField_plain huuid]
      · simp
        rfl
      · simp
    | cons cell cells =>
      refine ⟨44 :: utf8 (csvCells (cell :: cells) ++ ['\n']), ?_,
        .inr ⟨stripEnd (utf8 (csvCells (cell :: cells) ++ ['\n'])), ?_⟩⟩
      · rw [csvLine, csvCells, csvCells, csvField_plain hwire, csvField_plain huuid]
        · simp
          rfl
        · simp
        · simp
      · refine stripEnd_append (a := [44]) (by simp) (fun b hb => ?_) _
        rw [List.mem_singleton.mp hb]
        decide
  have hstrip : stripEnd (utf8 (csvLine (toWire k.timestamp :: uuidText k.id :: cells))) =
      utf8 (toWire k.timestamp) ++ 44 :: (utf8 (uuidText k.id) ++ stripEnd rest) := by
    have hmore : 44 :: (utf8 (uuidText k.id) ++ rest) = [44] ++ utf8 (uuidText k.id) ++ rest := rfl
    rw [hline, hmore, ← List.append_assoc, stripEnd_append (by simp)]
    · simp
    · intro b hb
      simp only [List.mem_append, List.mem_singleton] at hb
      rcases hb with hb | rfl | hb
      · exact (mem_utf8_plain hwire hb).1
      · decide
      · exact (mem_utf8_plain huuid hb).1
  have hfirst := takeWhile_stop (fun b hb => (mem_utf8_plain hwire hb).2.1)
    (utf8 (uuidText k.id) ++ stripEnd rest)
  have hsecond : (utf8 (uuidText k.id) ++ stripEnd rest).takeWhile (fun b => decide (b ≠ 44)) =
      utf8 (uuidText k.id) := by
    have hcomma : ∀ b ∈ utf8 (uuidText k.id), b ≠ 44 := fun b hb => (mem_utf8_plain huuid hb).2.1
    rcases hrest with hnil | ⟨more, hmore⟩
    · rw [hnil, List.append_nil, takeWhile_all hcomma]
    · rw [hmore, (takeWhile_stop hcomma more).1]
  rw [csvKey, hstrip, hfirst.1, hfirst.2]
  simp only [hsecond]
  exact parseKey_texts h

def behind (literal bytes : List UInt8) : Option (List UInt8) :=
  if bytes.take literal.length = literal then some (bytes.drop literal.length) else none

@[simp] theorem behind_append (literal rest : List UInt8) : behind literal (literal ++ rest) = some rest := by
  simp [behind]

/-- One or more bytes up to a quote, and what starts there. -/
def upToQuote (bytes : List UInt8) : Option (List UInt8 × List UInt8) :=
  let found := bytes.takeWhile fun b => decide (b ≠ 34)
  if found = [] then none else some (found, bytes.dropWhile fun b => decide (b ≠ 34))

theorem upToQuote_append {a : List UInt8} (hne : a ≠ []) (ha : ∀ b ∈ a, b ≠ 34) (rest : List UInt8) :
    upToQuote (a ++ 34 :: rest) = some (a, 34 :: rest) := by
  obtain ⟨htake, hdrop⟩ := takeWhile_stop ha rest
  rw [upToQuote, htake, hdrop, if_neg hne]

/-- What stands before a line's timestamp. -/
def beforeTimestamp : Text :=
  [Char.ofNat 123, '"', 't', 'i', 'm', 'e', 's', 't', 'a', 'm', 'p', '"', ':', '"']

/-- What stands between its timestamp and its id. -/
def beforeId : Text := ['"', ',', '"', 'i', 'd', '"', ':', '"']

/-- `ExportJsonLinesWriter.key`: the match of `_KEY` at the start of the line. -/
def jsonKey (line : List UInt8) : Except FileError ExportKey :=
  let found := do
    let (timestamp, rest) ← upToQuote (← behind (utf8 beforeTimestamp) line)
    let (id, rest) ← upToQuote (← behind (utf8 beforeId) rest)
    let _ ← behind [34] rest
    return (timestamp, id)
  match found with
  | none => .error .file
  | some (timestamp, id) => parseKey timestamp id

section Writers

variable {ρ : Type} (key : ρ → ExportKey) (hkey : ∀ r, InYears (key r).timestamp)
  (floatText : UInt64 → Text)

/-- `ExportCsvWriter.__cell`, and the text `csv.writer` gives the rest. -/
def csvCell : Json → Text
  | .null => []
  | .boolean b => if b then ['t', 'r', 'u', 'e'] else ['f', 'a', 'l', 's', 'e']
  | .float bits =>
    if finiteBits bits then compact floatText (.float bits)
    else if bits.toNat % 2 ^ 52 ≠ 0 then ['n', 'a', 'n']
    else if bits.toNat / 2 ^ 63 = 0 then ['i', 'n', 'f']
    else ['-', 'i', 'n', 'f']
  | .integer n => integerText n
  | .string s => s
  | .array items => compact floatText (.array items)
  | .object fields => compact floatText (.object fields)

/-- CSV, with the names and the values of the columns behind the key's. -/
def csvWriter (headerRow : Bool) (names : List Text) (columns : ρ → List Json) : LineWriter key where
  header := if headerRow then utf8 (csvLine ("timestamp".toList :: "id".toList :: names)) else []
  encode r := utf8 (csvLine (toWire (key r).timestamp :: uuidText (key r).id ::
    (columns r).map (csvCell floatText)))
  complete := balanced
  parseKey := csvKey
  header_unit := by
    cases headerRow with
    | false => exact .inl rfl
    | true => exact .inr (csvLine_unit _)
  encode_unit _ := csvLine_unit _
  parseKey_encode r := csvKey_line (hkey r) _

mutual

/-- `_finite`: a float that is not finite becomes null. -/
def finite : Json → Json
  | .null => .null
  | .boolean b => .boolean b
  | .integer n => .integer n
  | .float bits => if finiteBits bits then .float bits else .null
  | .string s => .string s
  | .array items => .array (finiteItems items)
  | .object fields => .object (finiteFields fields)

def finiteItems : List Json → List Json
  | [] => []
  | item :: items => finite item :: finiteItems items

def finiteFields : List (String × Json) → List (String × Json)
  | [] => []
  | field :: fields => (field.1, finite field.2) :: finiteFields fields

end

/-- One line: the key's columns, and the others by their names. -/
def jsonLine (k : ExportKey) (names : List String) (values : List Json) : Text :=
  compact floatText (.object (("timestamp", .string (toWire k.timestamp)) ::
    ("id", .string (uuidText k.id)) :: names.zip (finiteItems values))) ++ ['\n']

end Writers

theorem quote_plain {text : Text} (h : ∀ c ∈ text, PlainChar c) : quote text = '"' :: text ++ ['"'] := by
  have hescape : text.flatMap escape = text := by
    induction text with
    | nil => rfl
    | cons c text ih =>
      obtain ⟨-, hlow, -, hquote, hback⟩ := h c List.mem_cons_self
      have hne : ∀ d : Char, d.toNat < 32 → c ≠ d := by
        rintro d hd rfl
        omega
      rw [List.flatMap_cons, ih fun d hd => h d (List.mem_cons_of_mem _ hd)]
      unfold escape
      rw [if_neg hquote, if_neg hback, if_neg (hne _ (by decide)), if_neg (hne _ (by decide)),
        if_neg (hne _ (by decide)), if_neg (by omega), if_neg (by omega), if_neg (by omega)]
      rfl
  rw [quote, hescape]

/-- A line starts with the key in the form `jsonKey` looks for. -/
theorem jsonLine_start (floatText : UInt64 → Text) {k : ExportKey} (h : InYears k.timestamp)
    (names : List String) (values : List Json) : ∃ rest, jsonLine floatText k names values = beforeTimestamp ++
      (toWire k.timestamp ++ (beforeId ++ (uuidText k.id ++ '"' :: rest))) := by
  have hname : quote "timestamp".toList = ['"', 't', 'i', 'm', 'e', 's', 't', 'a', 'm', 'p', '"'] := by decide
  have hid : quote "id".toList = ['"', 'i', 'd', '"'] := by decide
  have hwire := quote_plain (plain_toWire h)
  have huuid := quote_plain (plain_uuidText k.id)
  unfold jsonLine
  cases names.zip (finiteItems values) with
  | nil =>
    refine ⟨Char.ofNat 125 :: ['\n'], ?_⟩
    rw [compact, compactFields, compactFields, compact, compact, hwire, huuid, hname, hid]
    · simp [beforeTimestamp, beforeId]
    · simp
  | cons field fields =>
    refine ⟨',' :: compactFields floatText (field :: fields) ++ Char.ofNat 125 :: ['\n'], ?_⟩
    rw [compact, compactFields, compactFields, compact, compact, hwire, huuid, hname, hid]
    · simp [beforeTimestamp, beforeId]
    · simp
    · simp

theorem ne_nil_of_plain_uuid (id : Uuid) : utf8 (uuidText id) ≠ [] := by
  rw [uuidText, uuidDigits]
  simp [List.range_succ, String.utf8EncodeChar_ne_nil]

theorem utf8_toWire_ne_nil (t : Int) : utf8 (toWire t) ≠ [] := by
  have hend : ∃ text, toWire t = text ++ ['Z'] := by
    unfold toWire
    split
    · exact ⟨_, rfl⟩
    · exact ⟨_, rfl⟩
  obtain ⟨text, htext⟩ := hend
  rw [htext, utf8_append]
  simp [String.utf8EncodeChar_ne_nil]

theorem jsonKey_line (floatText : UInt64 → Text) {k : ExportKey} (h : InYears k.timestamp)
    (names : List String) (values : List Json) : jsonKey (utf8 (jsonLine floatText k names values)) = .ok k := by
  obtain ⟨rest, hline⟩ := jsonLine_start floatText h names values
  have hquote : utf8 ('"' :: rest) = 34 :: utf8 rest := by
    rw [utf8_cons]
    rfl
  have hbefore : utf8 beforeId = 34 :: utf8 beforeId.tail := by
    rw [beforeId, utf8_cons]
    rfl
  have hfirst : upToQuote (utf8 (toWire k.timestamp) ++
      (utf8 beforeId ++ (utf8 (uuidText k.id) ++ 34 :: utf8 rest))) =
      some (utf8 (toWire k.timestamp), utf8 beforeId ++ (utf8 (uuidText k.id) ++ 34 :: utf8 rest)) := by
    rw [hbefore, List.cons_append]
    exact upToQuote_append (utf8_toWire_ne_nil _)
      (fun b hb => (mem_utf8_plain (plain_toWire h) hb).2.2) _
  have hsecond : upToQuote (utf8 (uuidText k.id) ++ 34 :: utf8 rest) =
      some (utf8 (uuidText k.id), 34 :: utf8 rest) :=
    upToQuote_append (ne_nil_of_plain_uuid k.id)
      (fun b hb => (mem_utf8_plain (plain_uuidText k.id) hb).2.2) _
  have hlast : behind [34] (34 :: utf8 rest) = some (utf8 rest) := behind_append [34] (utf8 rest)
  rw [hline, utf8_append, utf8_append, utf8_append, utf8_append, hquote, jsonKey]
  simp only [behind_append, Option.bind_eq_bind, Option.bind_some, hfirst, hsecond, hlast]
  exact parseKey_texts h

theorem jsonLine_unit {floatText : UInt64 → Text} (hfloat : ∀ bits, '\n' ∉ floatText bits)
    (k : ExportKey) (names : List String) (values : List Json) :
    IsUnit (fun _ => true) (utf8 (jsonLine floatText k names values)) := by
  refine ⟨⟨_, utf8_append _ ['\n']⟩, rfl, ?_⟩
  intro head tail hsplit hne
  obtain ⟨before, c, after, htext, hc, rfl, rfl⟩ := ascii_ends_text (by decide) _ head tail hsplit
  obtain rfl : c = '\n' := Char.toNat_inj.mp hc
  obtain ⟨rest, hrest⟩ := newline_in_body htext fun h => hne (by rw [h, utf8_nil])
  have hbody := newline_not_mem_compact hfloat (.object
    (("timestamp", .string (toWire k.timestamp)) :: ("id", .string (uuidText k.id)) ::
      names.zip (finiteItems values)))
  rw [hrest] at hbody
  exact absurd (by simp) hbody

/-- JSON lines, with the names and the values of the columns behind the key's. -/
def jsonLinesWriter {ρ : Type} (key : ρ → ExportKey) (hkey : ∀ r, InYears (key r).timestamp)
    (floatText : UInt64 → Text) (hfloat : ∀ bits, '\n' ∉ floatText bits) (names : List String)
    (columns : ρ → List Json) : LineWriter key where
  header := []
  encode r := utf8 (jsonLine floatText (key r) names (columns r))
  complete _ := true
  parseKey := jsonKey
  header_unit := .inl rfl
  encode_unit r := jsonLine_unit hfloat (key r) names (columns r)
  parseKey_encode r := jsonKey_line floatText (hkey r) names (columns r)

end Ceres.Exporter
