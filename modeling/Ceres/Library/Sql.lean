/-
  File:      Ceres/Library/Sql.lean
  Subject:   CONDITIONS OF A SQL STATEMENT, IN THREE-VALUED LOGIC.

  A condition is a tree over the columns of one row; a comparison with NULL is unknown, and a row is
  selected when every condition is true. What engines do differently (which letters `LIKE` tells
  apart, the functions they have) is a parameter, `Backend`.

  * `Value` and `Value.key` -- storage values and the linear order they compare in;
  * `Truth` -- the truth values, with `and`, `or` and `not` of Kleene's logic;
  * `Term`, `Condition` and their `eval`;
  * `and_true`, `or_true`, `allOf_true` -- **when a compound condition is true**;
  * `extreme_spec`, **`inGrouped_true`** -- what the grouped subquery keeps;
  * `Select`, `Statement` and `Statement.Returns` -- ordered, limited reads of a table, and what they
    may return.
-/
import Ceres.Library.Page
import Ceres.Library.Wildcard

namespace Ceres.Library.Sql

/-! ## 1. Values -/

/-- A value as an engine stores it or a statement binds it. -/
inductive Value where
  | null
  | boolean (b : Bool)
  | integer (n : Int)
  | text (t : Text)
  | blob (b : List UInt8)
  | timestamp (t : Int)
  | uuid (id : Nat)
  deriving DecidableEq, Repr

namespace Value

/-- Where a value stands among all: its class, then its number, then its code points or bytes. -/
abbrev Key : Type := Lex (ℕ × Lex (ℤ × List ℕ))

def key : Value → Key
  | null => toLex (0, toLex (0, []))
  | boolean b => toLex (1, toLex (b.toInt, []))
  | integer n => toLex (2, toLex (n, []))
  | text t => toLex (3, toLex (0, t.map Char.toNat))
  | blob b => toLex (4, toLex (0, b.map UInt8.toNat))
  | timestamp t => toLex (5, toLex (t, []))
  | uuid id => toLex (6, toLex (id, []))

end Value

/-- The comparison operators. -/
inductive Comparison where
  | eq
  | ne
  | lt
  | le
  | gt
  | ge
  deriving DecidableEq, Repr

/-- Whether an operator accepts the order of its sides. -/
def Comparison.accepts : Comparison → Ordering → Bool
  | eq, o => o == .eq
  | ne, o => o != .eq
  | lt, o => o == .lt
  | le, o => o != .gt
  | gt, o => o == .gt
  | ge, o => o != .lt

/-! ## 2. Truth values -/

/-- True, false, or unknown. -/
abbrev Truth : Type := Option Bool

namespace Truth

def and : Truth → Truth → Truth
  | some false, _ => some false
  | some true, b => b
  | none, some false => some false
  | none, _ => none

def or : Truth → Truth → Truth
  | some true, _ => some true
  | some false, b => b
  | none, some true => some true
  | none, _ => none

def not : Truth → Truth
  | some b => some !b
  | none => none

@[simp] theorem and_true (a b : Truth) : and a b = some true ↔ a = some true ∧ b = some true := by
  revert a b
  decide

@[simp] theorem or_true (a b : Truth) : or a b = some true ↔ a = some true ∨ b = some true := by
  revert a b
  decide

@[simp] theorem not_true (a : Truth) : not a = some true ↔ a = some false := by
  revert a
  decide

end Truth

/-- A comparison, unknown when a side is NULL. -/
def compareValues (op : Comparison) (a b : Value) : Truth :=
  if a = .null ∨ b = .null then none
  else some (op.accepts (cmp a.key b.key))

/-! ## 3. Terms and conditions -/

/-- A row, by column. -/
abbrev Row : Type := String → Value

/-- An expression; functions, casts and custom fragments are calls under their own text. -/
inductive Term where
  | column (key : String)
  | value (v : Value)
  | call (name : String) (args : List Term)

inductive Condition where
  | constant (b : Bool)
  | compare (op : Comparison) (left right : Term)
  | isIn (subject : Term) (values : List Value)
  | isNotNull (subject : Term)
  | like (subject pattern : Term) (escape : Option Char)
  | ilike (subject pattern : Term) (escape : Option Char)
  | glob (subject pattern : Term)
  /-- The column lies among the least (or greatest) values of the groups that `bucket` makes of
      the table's rows within `bounds`. -/
  | inGrouped (key : String) (greatest : Bool) (bounds : List (Comparison × Value)) (bucket : Term)
  | not (c : Condition)
  | and (c d : Condition)
  | or (c d : Condition)

/-- What engines do each in their way. -/
structure Backend where
  /-- `LIKE` compares letters after `fold`. -/
  fold : Char → Char
  /-- `ILIKE` compares letters after `lower`. -/
  lower : Char → Char
  /-- The escape character of a `LIKE` without an `ESCAPE` clause. -/
  escape : Option Char
  /-- The functions, casts and custom fragments. -/
  call : String → List Value → Value

variable (backend : Backend)

mutual

def Term.eval (row : Row) : Term → Value
  | .column key => row key
  | .value v => v
  | .call name args => backend.call name (Term.evalAll row args)

def Term.evalAll (row : Row) : List Term → List Value
  | [] => []
  | t :: args => Term.eval row t :: Term.evalAll row args

end

/-- A value where a text is wanted. -/
def asText : Value → Option Text
  | .text t => some t
  | .null => none
  | v =>
    match backend.call "CAST(? AS TEXT)" [v] with
    | .text t => some t
    | _ => none

/-- A text test on two values, unknown when one is NULL. -/
def matchValues (test : Text → Text → Bool) (subject pattern : Value) : Truth :=
  (asText backend subject).bind fun s => (asText backend pattern).map fun p => test p s

/-- `v = a OR v = b OR ...`. -/
def amongValues (v : Value) : List Value → Truth
  | [] => some false
  | a :: values => Truth.or (compareValues .eq v a) (amongValues v values)

def extreme (greatest : Bool) : List Value → Value
  | [] => .null
  | v :: values =>
    let rest := extreme greatest values
    if v = .null then rest
    else if rest = .null then v
    else if (compareValues (if greatest then .ge else .le) v rest) = some true then v
    else rest

/-- `SELECT min(key) FROM rows WHERE bounds GROUP BY bucket`. -/
def groupedExtremes (rows : List Row) (key : String) (greatest : Bool)
    (bounds : List (Comparison × Value)) (bucket : Term) : List Value :=
  let kept := rows.filter fun row => bounds.all fun b => compareValues b.1 (row key) b.2 = some true
  let buckets := (kept.map (Term.eval backend · bucket)).dedup
  buckets.map fun b =>
    extreme greatest ((kept.filter (Term.eval backend · bucket = b)).map (· key))

def Condition.eval (rows : List Row) (row : Row) : Condition → Truth
  | constant b => some b
  | compare op left right => compareValues op (left.eval backend row) (right.eval backend row)
  | isIn subject values => amongValues (subject.eval backend row) values
  | isNotNull subject => some (subject.eval backend row ≠ .null)
  | like subject pattern escape =>
    matchValues backend (Library.like (escape <|> backend.escape) backend.fold)
      (subject.eval backend row) (pattern.eval backend row)
  | ilike subject pattern escape =>
    matchValues backend (Library.like (escape <|> backend.escape) backend.lower)
      (subject.eval backend row) (pattern.eval backend row)
  | glob subject pattern =>
    matchValues backend Library.glob (subject.eval backend row) (pattern.eval backend row)
  | inGrouped key greatest bounds bucket =>
    amongValues (row key) (groupedExtremes backend rows key greatest bounds bucket)
  | not c => (c.eval rows row).not
  | and c d => (c.eval rows row).and (d.eval rows row)
  | or c d => (c.eval rows row).or (d.eval rows row)

/-- The row passes the `WHERE` clause that holds the conditions. -/
def selects (rows : List Row) (conditions : List Condition) (row : Row) : Bool :=
  conditions.all fun c => c.eval backend rows row = some true

/-! ## 4. Joined conditions -/

/-- The conditions joined with `AND`, `none` for no condition. -/
def allOf : List Condition → Option Condition
  | [] => none
  | c :: conditions => some (conditions.foldl .and c)

/-- The conditions joined with `OR`, `none` for no condition. -/
def anyOf : List Condition → Option Condition
  | [] => none
  | c :: conditions => some (conditions.foldl .or c)

variable {backend}
variable {rows : List Row} {row : Row}

theorem foldl_and_true : ∀ (conditions : List Condition) (c : Condition),
    (conditions.foldl .and c).eval backend rows row = some true ↔ c.eval backend rows row = some true ∧
        ∀ d ∈ conditions, d.eval backend rows row = some true
  | [], c => by simp
  | d :: conditions, c => by
      rw [List.foldl_cons, foldl_and_true conditions, Condition.eval, Truth.and_true]
      simp [and_assoc]

theorem foldl_or_true : ∀ (conditions : List Condition) (c : Condition),
    (conditions.foldl .or c).eval backend rows row = some true ↔ c.eval backend rows row = some true ∨
        ∃ d ∈ conditions, d.eval backend rows row = some true
  | [], c => by simp
  | d :: conditions, c => by
      rw [List.foldl_cons, foldl_or_true conditions, Condition.eval, Truth.or_true]
      simp [or_assoc]

/-- **A conjunction is true when every part is.** -/
theorem allOf_true {conditions : List Condition} {c : Condition} (h : allOf conditions = some c) :
    c.eval backend rows row = some true ↔ ∀ d ∈ conditions, d.eval backend rows row = some true := by
  cases conditions with
  | nil => simp [allOf] at h
  | cons d conditions =>
    rw [allOf, Option.some.injEq] at h
    rw [← h, foldl_and_true]
    simp

theorem foldl_or_definite {ι : Type} {f : ι → Condition} {p : ι → Bool} :
    ∀ (items : List ι) (c : Condition) (b : Bool), c.eval backend rows row = some b →
      (∀ i ∈ items, (f i).eval backend rows row = some (p i)) →
      ((items.map f).foldl .or c).eval backend rows row = some (b || items.any p)
  | [], c, b, hc, _ => by simpa using hc
  | i :: items, c, b, hc, hi => by
      have hstep : (Condition.or c (f i)).eval backend rows row = some (b || p i) := by
        rw [Condition.eval, hc, hi i (by simp)]
        cases b <;> rfl
      rw [List.map_cons, List.foldl_cons,
        foldl_or_definite items _ _ hstep fun j hj => hi j (List.mem_cons_of_mem i hj),
        List.any_cons, Bool.or_assoc]

/-- **A disjunction of definite conditions is definite.** -/
theorem anyOf_definite {ι : Type} {f : ι → Condition} {p : ι → Bool} {items : List ι}
    {c : Condition} (h : anyOf (items.map f) = some c)
    (hi : ∀ i ∈ items, (f i).eval backend rows row = some (p i)) :
    c.eval backend rows row = some (items.any p) := by
  cases items with
  | nil => simp [anyOf] at h
  | cons i items =>
    rw [List.map_cons, anyOf, Option.some.injEq] at h
    rw [← h, foldl_or_definite items _ _ (hi i (by simp))
      fun j hj => hi j (List.mem_cons_of_mem i hj), List.any_cons]

/-! ## 5. Comparisons of values -/

theorem Value.key_injective : Function.Injective Value.key := by
  have hchar : Function.Injective Char.toNat := fun a b h => Char.toNat_inj.mp h
  have hbyte : Function.Injective UInt8.toNat := fun a b h => UInt8.toNat_inj.mp h
  have hbool : Function.Injective Bool.toInt := by decide
  intro a b h
  cases a <;> cases b <;>
    simp [Value.key, hchar.list_map.eq_iff, hbyte.list_map.eq_iff, hbool.eq_iff] at h <;>
    simp_all

theorem accepts_eq (a b : Value) : Comparison.eq.accepts (cmp a.key b.key) = decide (a = b) := by
  show (cmp a.key b.key == .eq) = decide (a = b)
  rw [Bool.eq_iff_iff, beq_iff_eq, cmp_eq_eq_iff, Value.key_injective.eq_iff, decide_eq_true_iff]

theorem accepts_ne (a b : Value) : Comparison.ne.accepts (cmp a.key b.key) = decide (a ≠ b) := by
  show (!(Comparison.eq.accepts (cmp a.key b.key))) = decide (a ≠ b)
  rw [accepts_eq, decide_not]

theorem compareValues_eq_true {a b : Value} : compareValues .eq a b = some true ↔ a = b ∧ a ≠ .null := by
  by_cases h : a = .null ∨ b = .null
  · rw [compareValues, if_pos h]
    rcases h with rfl | rfl <;> simp
  · rw [compareValues, if_neg h, accepts_eq, Option.some.injEq, decide_eq_true_iff]
    rw [not_or] at h
    exact ⟨fun heq => ⟨heq, h.1⟩, fun heq => heq.1⟩

theorem compareValues_text_eq (a b : Text) : compareValues .eq (.text a) (.text b) = some (decide (a = b)) := by
  rw [compareValues, if_neg (by simp), accepts_eq]
  simp

theorem compareValues_text_ne (a b : Text) : compareValues .ne (.text a) (.text b) = some (decide (a ≠ b)) := by
  rw [compareValues, if_neg (by simp), accepts_ne]
  simp

theorem amongValues_true {v : Value} : ∀ {values : List Value},
    amongValues v values = some true ↔ v ∈ values ∧ v ≠ .null
  | [] => by simp [amongValues]
  | a :: values => by
      rw [amongValues, Truth.or_true, compareValues_eq_true, amongValues_true, List.mem_cons]
      tauto

/-! ## 6. Grouped extremes -/

/-- The value stands before the other, in the direction that is asked for. -/
def leads (greatest : Bool) (a b : Value) : Prop := if greatest then b.key ≤ a.key else a.key ≤ b.key

instance (greatest : Bool) (a b : Value) : Decidable (leads greatest a b) :=
  inferInstanceAs (Decidable (if greatest then b.key ≤ a.key else a.key ≤ b.key))

variable {greatest : Bool}

theorem leads_antisymm {a b : Value} (hab : leads greatest a b) (hba : leads greatest b a) : a = b := by
  cases greatest with
  | false => exact Value.key_injective (le_antisymm hab hba)
  | true => exact Value.key_injective (le_antisymm hba hab)

theorem leads_trans {a b c : Value} (hab : leads greatest a b)
    (hbc : leads greatest b c) : leads greatest a c := by
  cases greatest with
  | false => exact le_trans (α := Value.Key) hab hbc
  | true => exact le_trans (α := Value.Key) hbc hab

theorem leads_refl (greatest : Bool) (a : Value) : leads greatest a a := by
  cases greatest <;> exact le_refl a.key

theorem leads_total (greatest : Bool) (a b : Value) : leads greatest a b ∨ leads greatest b a := by
  cases greatest with
  | false => exact le_total a.key b.key
  | true => exact le_total b.key a.key

/-- The comparison `extreme` makes. -/
theorem compareValues_leads {a b : Value} (ha : a ≠ .null) (hb : b ≠ .null) :
    compareValues (if greatest then .ge else .le) a b = some true ↔ leads greatest a b := by
  rw [compareValues, if_neg (not_or.mpr ⟨ha, hb⟩), Option.some.injEq]
  cases greatest with
  | false =>
    show (cmp a.key b.key != .gt) = true ↔ a.key ≤ b.key
    rw [bne_iff_ne, ne_eq, cmp_eq_gt_iff, not_lt]
  | true =>
    show (cmp a.key b.key != .lt) = true ↔ b.key ≤ a.key
    rw [bne_iff_ne, ne_eq, cmp_eq_lt_iff, not_lt]

/-- **The extreme is one of the values and leads them all**, or there is none but NULL. -/
theorem extreme_spec (greatest : Bool) : ∀ values : List Value,
    (extreme greatest values = .null ∧ ∀ v ∈ values, v = .null) ∨
      (extreme greatest values ≠ .null ∧ extreme greatest values ∈ values ∧
        ∀ v ∈ values, v ≠ .null → leads greatest (extreme greatest values) v)
  | [] => .inl ⟨rfl, by simp⟩
  | v :: values => by
      have ih := extreme_spec greatest values
      by_cases hv : v = .null
      · have heq : extreme greatest (v :: values) = extreme greatest values := by
          rw [extreme, if_pos hv]
        rw [heq]
        rcases ih with ⟨hnull, hall⟩ | ⟨hsome, hmem, hleads⟩
        · exact .inl ⟨hnull, List.forall_mem_cons.mpr ⟨hv, hall⟩⟩
        · exact .inr ⟨hsome, List.mem_cons_of_mem v hmem,
            List.forall_mem_cons.mpr ⟨fun h => absurd hv h, hleads⟩⟩
      · refine .inr ?_
        rcases ih with ⟨hnull, hall⟩ | ⟨hsome, hmem, hleads⟩
        · have heq : extreme greatest (v :: values) = v := by
            rw [extreme, if_neg hv]
            exact if_pos hnull
          rw [heq]
          exact ⟨hv, List.mem_cons_self, List.forall_mem_cons.mpr
            ⟨fun _ => leads_refl greatest v, fun w hw hne => absurd (hall w hw) hne⟩⟩
        · by_cases hfirst : leads greatest v (extreme greatest values)
          · have heq : extreme greatest (v :: values) = v := by
              rw [extreme, if_neg hv, if_neg hsome]
              exact if_pos ((compareValues_leads hv hsome).mpr hfirst)
            rw [heq]
            exact ⟨hv, List.mem_cons_self, List.forall_mem_cons.mpr
              ⟨fun _ => leads_refl greatest v, fun w hw hne => leads_trans hfirst (hleads w hw hne)⟩⟩
          · have heq : extreme greatest (v :: values) = extreme greatest values := by
              rw [extreme, if_neg hv, if_neg hsome]
              exact if_neg fun h => hfirst ((compareValues_leads hv hsome).mp h)
            rw [heq]
            exact ⟨hsome, List.mem_cons_of_mem v hmem, List.forall_mem_cons.mpr
              ⟨fun _ => (leads_total greatest _ _).resolve_left hfirst, hleads⟩⟩

/-- The value passes every bound. -/
def within (bounds : List (Comparison × Value)) (v : Value) : Prop :=
  ∀ b ∈ bounds, compareValues b.1 v b.2 = some true

instance (bounds : List (Comparison × Value)) (v : Value) : Decidable (within bounds v) :=
  inferInstanceAs (Decidable (∀ b ∈ bounds, compareValues b.1 v b.2 = some true))

/-- **A row is among the extremes of its table** when it passes the bounds and leads the rows of its own
    group that do. The group has to be a function of the column. -/
theorem inGrouped_true {key : String} {bounds : List (Comparison × Value)} {bucket : Term} (hrow : row ∈ rows)
    (hvalue : row key ≠ .null)
    (hbucket : ∀ r ∈ rows, r key = row key → bucket.eval backend r = bucket.eval backend row) :
    (Condition.inGrouped key greatest bounds bucket).eval backend rows row = some true ↔
      within bounds (row key) ∧ ∀ r ∈ rows, within bounds (r key) → r key ≠ .null →
        bucket.eval backend r = bucket.eval backend row → leads greatest (row key) (r key) := by
  have hkept : ∀ r, r ∈ rows.filter (fun r => bounds.all fun b =>
      compareValues b.1 (r key) b.2 = some true) ↔ r ∈ rows ∧ within bounds (r key) := by
    simp [within]
  have hspec (b : Value) := extreme_spec greatest (((rows.filter fun r => bounds.all fun b =>
    compareValues b.1 (r key) b.2 = some true).filter (Term.eval backend · bucket = b)).map (· key))
  simp only [List.mem_map, List.mem_filter (p := fun x => decide _), hkept,
    decide_eq_true_eq] at hspec
  rw [Condition.eval, amongValues_true, groupedExtremes]
  simp only [List.mem_map, List.mem_dedup, exists_exists_and_eq_and, hkept]
  constructor
  · intro h
    obtain ⟨⟨r, hr, hextreme⟩, -⟩ := h
    rcases hspec (bucket.eval backend r) with ⟨hnull, -⟩ | ⟨-, hmem, hleads⟩
    · exact absurd (hextreme.symm.trans hnull) hvalue
    · rw [hextreme] at hmem hleads
      obtain ⟨s, ⟨hs, hsame⟩, hkey⟩ := hmem
      have hgroup : bucket.eval backend row = bucket.eval backend r := (hbucket s hs.1 hkey).symm.trans hsame
      refine ⟨hkey ▸ hs.2, fun other hother hwithin hne heq => ?_⟩
      exact hleads _ ⟨other, ⟨⟨hother, hwithin⟩, heq.trans hgroup⟩, rfl⟩ hne
  · intro h
    obtain ⟨hwithin, hfirst⟩ := h
    refine ⟨⟨row, ⟨hrow, hwithin⟩, ?_⟩, hvalue⟩
    rcases hspec (bucket.eval backend row) with ⟨-, hall⟩ | ⟨hsome, hmem, hleads⟩
    · exact absurd (hall (row key) ⟨row, ⟨⟨hrow, hwithin⟩, rfl⟩, rfl⟩) hvalue
    · refine leads_antisymm (hleads (row key) ⟨row, ⟨⟨hrow, hwithin⟩, rfl⟩, rfl⟩ hvalue) ?_
      obtain ⟨s, ⟨hs, hsame⟩, hkey⟩ := hmem
      rw [← hkey] at hsome ⊢
      exact hfirst s hs.1 hs.2 hsome hsame

/-! ## 7. Statements -/

/-- One `ORDER BY` term. -/
structure OrderBy where
  key : String
  ascending : Bool
  deriving DecidableEq, Repr

/-- A value's place in the direction it is sorted in. -/
def directed (ascending : Bool) (k : Value.Key) : Lex (Value.Key ⊕ Value.Keyᵒᵈ) :=
  toLex (if ascending then .inl k else .inr (OrderDual.toDual k))

/-- The sort key of a row. The engine's collations say where a column's values stand, NULL
    included. -/
def sortKey (place : String → Value → Value.Key) (order : List OrderBy) (row : Row) :
    List (Lex (Value.Key ⊕ Value.Keyᵒᵈ)) :=
  order.map fun term => directed term.ascending (place term.key (row term.key))

/-- `SELECT * FROM ... WHERE conditions ORDER BY order LIMIT limit OFFSET offset`. -/
structure Select where
  conditions : List Condition := []
  order : List OrderBy
  limit : Option Nat
  offset : Option Nat := none

/-- A read of a table: directly, or from the `UNION ALL` of several reads of it. -/
inductive Statement where
  | direct (select : Select)
  | merged (seeks : List Select) (select : Select)

section Statements

variable (backend : Backend) (place : String → Value → Value.Key) (rows : List Row)

/-- What a read of `source` may return; subqueries of its conditions read the table. -/
def Select.Returns (select : Select) (source result : List Row) : Prop :=
  IsPage (sortKey place select.order) (source.filter (selects backend rows select.conditions))
    (select.limit.getD source.length) (select.offset.getD 0) result

/-- What a statement may return. -/
def Statement.Returns : Statement → List Row → Prop
  | direct select, result => select.Returns backend place rows rows result
  | merged seeks select, result => ∃ heads : List (List Row),
      List.Forall₂ (fun seek head => seek.Returns backend place rows rows head) seeks heads ∧
        select.Returns backend place rows heads.flatten result

/-- The row is among those the statement orders and cuts. -/
def Statement.Reads (row : Row) : Statement → Prop
  | direct select => selects backend rows select.conditions row = true
  | merged seeks select => (∃ seek ∈ seeks, selects backend rows seek.conditions row = true) ∧
      selects backend rows select.conditions row = true

end Statements

theorem Select.exists_returns (backend : Backend) (place : String → Value → Value.Key)
    (rows source : List Row) (select : Select) : ∃ result, select.Returns backend place rows source result :=
  exists_isPage _ _ _ _

end Ceres.Library.Sql
