/-
  File:      Ceres/Database/Expansion.lean
  Subject:   THE LISTING STATEMENT AND ITS EXPANSION OVER BRANCHES (`rust/ceres-database/src/filter.rs`,
             `store.rs`, `binder.rs`).

  A listing under a subtree selector may be rewritten: one ordered, limited seek for each branch of
  the subtree, merged and cut to the page.

  * `FilterCore.statement`, `statementOver`, `listingStatement` -- the plain statement, the expanded
    one, and the choice between them;
  * `boundCount`, `Executes` -- running a statement: counts are bound as signed 64-bit numbers;
  * `seeks_perm` -- the rows of the seeks are the rows of the plain statement;
  * **`preservesPage_iff`** -- the expansion shows the plain statement's page exactly when the
    depth of a seek can be bound;
  * **`discovery_complete_iff`** -- discovery finds every branch (and so no row is lost) exactly when the
    cap counts branches and not their repetitions; **`listing_lists_page`** -- both
    together.
-/
import Ceres.Database.Branches
import Ceres.Database.Filter

namespace Ceres.Database

open Ceres.Library
open Ceres.Library.Sql

/-! ## 1. The statements -/

namespace FilterNode

def own : FilterNode → Conditions
  | node own _ _ => own

def andChildren : FilterNode → List FilterNode
  | node _ andChildren _ => andChildren

def orChildren : FilterNode → List FilterNode
  | node _ _ orChildren => orChildren

end FilterNode

/-- `u64::saturating_add`. -/
def saturatingAdd (a b : UInt64) : UInt64 :=
  if a.toNat + b.toNat < 2 ^ 64 then a + b else UInt64.ofNat (2 ^ 64 - 1)

namespace FilterCore

variable (filter : FilterCore)

/-- The ordering terms, the table's own when the filter has none. -/
def orderTerms : List OrderTerm :=
  if filter.order ≠ [] then filter.order
  else filter.table.schema.order.filterMap fun column =>
    (filter.table.schema.fields.find? (·.key = column)).map fun field => { field, ascending := true }

/-- The `ORDER BY` terms; which collation a text column is given depends on the dialect. -/
def orderBy : List OrderBy := filter.orderTerms.map fun term => ⟨term.field.key, term.ascending⟩

/-- Apply the filter's limit and offset to a statement. SQLite refuses a bare `OFFSET`. -/
def page (dialect : SqlDialect) (select : Select) : Select :=
  { select with
    limit := match filter.limit with
      | some limit => some limit.toNat
      | none => if filter.offset.isSome ∧ dialect = .sqliteText then some (2 ^ 63 - 1)
          else select.limit
    offset := match filter.offset with
      | some offset => some offset.toNat
      | none => select.offset }

/-- Build the listing statement. -/
def statement (dialect : SqlDialect) (now : Int) : Statement :=
  .direct (filter.page dialect
    { conditions := filter.node.combined filter.table.schema dialect now
      order := filter.orderBy
      limit := none })

/-- Where to discover branches, when expanding the listing over them would pay. -/
def expansionScope : Option Scope :=
  if filter.limit.isNone then none
  else if filter.node.orChildren ≠ [] then none
  else
    match filter.node.own.address with
    | none => none
    | some selector =>
      let scope := selector.scope filter.node.own.root
      if scope.walks then some scope else none

/-- The column the selector is about. -/
def addressKey : String :=
  ((filter.table.schema.fields.find? (·.family = .address)).map (·.key)).getD "address"

def admits (address : Text) : Bool :=
  match filter.node.own.address with
  | none => false
  | some selector => selector.matches address filter.node.own.root

/-- How many rows each branch has to offer. -/
def depth : UInt64 := saturatingAdd (filter.limit.getD 0) (filter.offset.getD 0)

/-- One branch's leading rows. -/
def seek (dialect : SqlDialect) (now : Int) (branch : Text) : Select :=
  { conditions := filter.node.combinedWithoutAddress filter.table.schema dialect now ++
      [.compare .eq (.column filter.addressKey) (.value (.text branch))]
    order := filter.orderBy
    limit := some filter.depth.toNat }

def statementOver (branches : List Text) (dialect : SqlDialect) (now : Int) : Statement :=
  match branches.filter filter.admits with
  | [] => filter.statement dialect now
  | admitted =>
    .merged (admitted.map (filter.seek dialect now))
      (filter.page dialect { order := filter.orderBy, limit := none })

/-- The listing statement to run over a table with the given addresses. -/
def listingStatement (addresses : List Text) (dialect : SqlDialect) (now : Int) : Statement :=
  match filter.expansionScope with
  | none => filter.statement dialect now
  | some scope =>
    let branches := discoverBranches addresses scope
    if branches = [] ∨ BRANCH_CAP < branches.length then filter.statement dialect now
    else filter.statementOver branches dialect now

end FilterCore

/-! ## 2. Running a statement -/

/-- A bound count fits a signed integer, or binding it fails. -/
def boundCount (count : Nat) : Option Int := if count < 2 ^ 63 then some count else none

/-- The counts a read binds. -/
def counts (select : Select) : List Nat := select.limit.toList ++ select.offset.toList

/-- The counts a statement binds. -/
def statementCounts : Statement → List Nat
  | .direct select => counts select
  | .merged seeks select => seeks.flatMap counts ++ counts select

def Binds (statement : Statement) : Prop := ∀ n ∈ statementCounts statement, (boundCount n).isSome

/-- What running a statement comes to. -/
inductive Outcome where
  | refused
  | page (rows : List Row)

/-- Running the statement over the rows may come to the outcome. -/
def Executes (backend : Backend) (place : String → Value → Value.Key) (rows : List Row)
    (statement : Statement) : Outcome → Prop
  | .refused => ¬ Binds statement
  | .page result => Binds statement ∧ statement.Returns backend place rows result

/-- The outcomes are the same page of the rows that match: none is duplicated, every row matches, the
    sort keys are the same, and the rows are too where the order terms separate what matches. -/
def SamePage (place : String → Value → Value.Key) (order : List OrderBy) (rows : List Row)
    (matching : Row → Bool) (expanded plain : Outcome) : Prop :=
  match expanded, plain with
  | .refused, .refused => True
  | .page result, .page result' =>
    result.Subperm rows ∧ (∀ row ∈ result, matching row = true) ∧
      result.map (sortKey place order) = result'.map (sortKey place order) ∧
      ((∀ x ∈ rows, ∀ y ∈ rows, matching x = true → matching y = true →
        sortKey place order x = sortKey place order y → x = y) → result = result')
  | _, _ => False

/-! ## 3. The seeks read what the plain statement reads -/

theorem address_key (table : Table) :
    ∀ field ∈ table.schema.fields, field.family = .address → field.key = "address" := by
  cases table <;> decide

theorem FilterCore.addressKey_eq (filter : FilterCore) : filter.addressKey = "address" := by
  unfold FilterCore.addressKey
  cases h : filter.table.schema.fields.find? (·.family = .address) with
  | none => rfl
  | some field =>
    have hfamily : field.family = .address := by simpa using List.find?_some h
    rw [Option.map_some, Option.getD_some]
    exact address_key filter.table field (List.mem_of_find?_eq_some h) hfamily

section Reads

variable {lower : Char → Char} {call : String → List Value → Value} {rows : List Row} {row : Row}
  {address : Text} {dialect : SqlDialect} {now : Int}

theorem selects_flatMap {backend : Backend} {ι : Type} {items : List ι} {f : ι → List Condition} :
    selects backend rows (items.flatMap f) row = true ↔ ∀ i ∈ items, selects backend rows (f i) row = true := by
  simp only [selects_iff, List.mem_flatMap]
  exact ⟨fun h i hi c hc => h c ⟨i, hi, hc⟩, fun h c ⟨i, hi, hc⟩ => h i hi c hc⟩

theorem selects_fieldConditions {own : Conditions} {field : FilterField}
    (hroot : ∀ r ∈ own.root, validAddress r = true)
    (hrow : field.family = .address → row field.key = .text address) :
    selects (dialect.backend lower call) rows (own.fieldConditions dialect now true field) row = true ↔
      selects (dialect.backend lower call) rows (own.fieldConditions dialect now false field) row = true ∧
        (field.family = .address → ∀ selector ∈ own.address, selector.matches address own.root = true) := by
  unfold Conditions.fieldConditions
  simp only [selects_append]
  by_cases hfamily : field.family = .address
  · have hselector : selects (dialect.backend lower call) rows
        ((own.address.map (·.condition field.key own.root dialect)).toList) row = true ↔
          ∀ selector ∈ own.address, selector.matches address own.root = true := by
      cases own.address with
      | none => simp [selects]
      | some selector =>
        simp [selects_iff, selector.condition_eval lower call rows hroot (hrow hfamily) dialect]
    simp only [hfamily, and_self, Bool.false_eq_true, false_and, if_true, if_false, hselector]
    simp [selects]
  · simp [hfamily]

theorem selects_compile {own : Conditions} {table : Table} (hown : own.WellFormed table.schema)
    (hrow : row "address" = .text address) :
    selects (dialect.backend lower call) rows (own.compile table.schema dialect now true) row = true ↔
      selects (dialect.backend lower call) rows (own.compile table.schema dialect now false) row = true ∧
        ∀ selector ∈ own.address, selector.matches address own.root = true := by
  have hfield : ∀ field ∈ table.schema.fields, field.family = .address → row field.key = .text address := by
    intro field hf hfamily
    rw [address_key table field hf hfamily, hrow]
  unfold Conditions.compile
  simp only [selects_append, selects_flatMap, and_assoc]
  refine and_congr_right fun _ => and_congr_right fun _ => ⟨fun h => ⟨?_, ?_⟩, fun ⟨h, hs⟩ => ?_⟩
  · intro field hf
    exact ((selects_fieldConditions hown.root (hfield field hf)).mp (h field hf)).1
  · intro selector hs
    obtain ⟨field, hf, hfamily⟩ := hown.address (by simp [Option.mem_def.mp hs])
    exact ((selects_fieldConditions hown.root (hfield field hf)).mp (h field hf)).2 hfamily
      selector hs
  · intro field hf
    exact (selects_fieldConditions hown.root (hfield field hf)).mpr ⟨h field hf, fun _ => hs⟩

theorem FilterCore.expansionScope_eq_some {filter : FilterCore} {scope : Scope}
    (h : filter.expansionScope = some scope) : filter.limit.isSome = true ∧ filter.node.orChildren = [] ∧
      ∃ selector, filter.node.own.address = some selector ∧
        selector.scope filter.node.own.root = scope ∧ scope.walks = true := by
  unfold FilterCore.expansionScope at h
  split at h
  · cases h
  · rename_i hlimit
    split at h
    · cases h
    · rename_i hors
      split at h
      · cases h
      · rename_i selector hselector
        dsimp only at h
        split at h
        · rename_i hwalks
          cases h
          exact ⟨by simpa [Option.isSome_iff_ne_none] using hlimit, by simpa using hors, selector,
            hselector, rfl, hwalks⟩
        · cases h

/-- **The selector comes off a filter that is expanded**: what the tree selects is what it selects
    without its own selector, on the rows whose address the selector takes. -/
theorem selects_combined {filter : FilterCore} {scope : Scope}
    (hscope : filter.expansionScope = some scope) (hrow : row "address" = .text address) :
    selects (dialect.backend lower call) rows (filter.node.combined filter.table.schema dialect now) row = true ↔
      selects (dialect.backend lower call) rows
          (filter.node.combinedWithoutAddress filter.table.schema dialect now) row = true ∧
        filter.admits address = true := by
  obtain ⟨-, hors, selector, hselector, -, -⟩ := FilterCore.expansionScope_eq_some hscope
  have hwell := filter.wellFormed
  unfold FilterCore.admits
  cases hnode : filter.node with
  | node own andChildren orChildren =>
    rw [hnode] at hors hselector hwell
    cases hwell with
    | node _ _ _ hown hands _ =>
      simp only [FilterNode.orChildren, FilterNode.own] at hors hselector ⊢
      subst hors
      rw [FilterNode.combined, FilterNode.combinedWithoutAddress]
      simp only [combinedOrs, joinTerms, selects_append, selects_compile hown hrow, hselector,
        Option.mem_def, Option.some.injEq, forall_eq']
      tauto

theorem selects_seek {filter : FilterCore} {branch : Text} (hrow : row "address" = .text address) :
    selects (dialect.backend lower call) rows (filter.seek dialect now branch).conditions row =
      (selects (dialect.backend lower call) rows
          (filter.node.combinedWithoutAddress filter.table.schema dialect now) row &&
        decide (address = branch)) := by
  rw [Bool.eq_iff_iff, FilterCore.seek, selects_append, Bool.and_eq_true, decide_eq_true_iff]
  refine and_congr_right fun _ => ?_
  simp [selects, Condition.eval, Term.eval, filter.addressKey_eq, hrow, compareValues_text_eq]

end Reads

/-- The address of a stored row. -/
def addressOf (row : Row) : Text :=
  match row "address" with
  | .text address => address
  | _ => []

/-- The address column of the table is a text that is not NULL. -/
def Addressed (rows : List Row) : Prop := ∀ row ∈ rows, row "address" = .text (addressOf row)

/-- The branches hold every stored address that the selector takes. -/
def Covers (filter : FilterCore) (branches : List Text) (rows : List Row) : Prop :=
  ∀ row ∈ rows, filter.admits (addressOf row) = true → addressOf row ∈ branches

section Pages

variable {filter : FilterCore} {scope : Scope} (hscope : filter.expansionScope = some scope)
variable {rows : List Row} (haddressed : Addressed rows)
variable {branches : List Text} (hnodup : branches.Nodup) (hcovers : Covers filter branches rows)
variable (dialect : SqlDialect) (now : Int) (lower : Char → Char)
variable (call : String → List Value → Value) (place : String → Value → Value.Key)

include hscope haddressed hnodup hcovers in
/-- **The seeks' rows are the plain statement's**, before ordering and cutting. -/
theorem seeks_perm : (((branches.filter filter.admits).map (filter.seek dialect now)).map fun seek =>
        rows.filter (selects (dialect.backend lower call) rows seek.conditions)).flatten.Perm
      (rows.filter (selects (dialect.backend lower call) rows
        (filter.node.combined filter.table.schema dialect now))) := by
  have hperm := filter_by_key addressOf (selects (dialect.backend lower call) rows
    (filter.node.combinedWithoutAddress filter.table.schema dialect now)) rows
    (hnodup.filter filter.admits)
  have hseek : (((branches.filter filter.admits).map (filter.seek dialect now)).map fun seek =>
      rows.filter (selects (dialect.backend lower call) rows seek.conditions)) =
      (branches.filter filter.admits).map fun branch => rows.filter fun row =>
        selects (dialect.backend lower call) rows
          (filter.node.combinedWithoutAddress filter.table.schema dialect now) row &&
          decide (addressOf row = branch) := by
    rw [List.map_map]
    refine List.map_congr_left fun branch _ => List.filter_congr fun row hr => ?_
    exact selects_seek (haddressed row hr)
  rw [hseek]
  refine hperm.trans (List.Perm.of_eq (List.filter_congr fun row hr => ?_))
  rw [Bool.eq_iff_iff, selects_combined hscope (haddressed row hr)]
  simp only [Bool.and_eq_true, decide_eq_true_eq, List.mem_filter]
  exact and_congr_right fun _ => ⟨fun h => h.2, fun h => ⟨hcovers row hr h, h⟩⟩

theorem FilterCore.page_returns {backend : Backend} {limit : UInt64} (hlimit : filter.limit = some limit)
    (select : Select) (hoffset : select.offset = none) (source result : List Row) :
    (filter.page dialect select).Returns backend place rows source result ↔
      IsPage (sortKey place select.order) (source.filter (selects backend rows select.conditions))
        limit.toNat (filter.offset.getD 0).toNat result := by
  unfold Select.Returns FilterCore.page
  simp only [hlimit, Option.getD_some]
  cases filter.offset with
  | none => simp [hoffset]
  | some offset => simp

theorem depth_toNat (hdepth : (filter.limit.getD 0).toNat + (filter.offset.getD 0).toNat < 2 ^ 64) :
    filter.depth.toNat = (filter.limit.getD 0).toNat + (filter.offset.getD 0).toNat := by
  rw [FilterCore.depth, saturatingAdd, if_pos hdepth, UInt64.toNat_add, Nat.mod_eq_of_lt hdepth]

include hscope haddressed hnodup hcovers in
/-- **What the expanded statement returns, the plain statement may return**, when the depth of a seek is
    as many rows as the page reaches past. -/
theorem returns_of_over (hdepth : (filter.limit.getD 0).toNat + (filter.offset.getD 0).toNat < 2 ^ 64)
    {result : List Row}
    (h : (filter.statementOver branches dialect now).Returns (dialect.backend lower call) place rows result) :
    (filter.statement dialect now).Returns (dialect.backend lower call) place rows result := by
  obtain ⟨hsome, -⟩ := FilterCore.expansionScope_eq_some hscope
  obtain ⟨limit, hlimit⟩ := Option.isSome_iff_exists.mp hsome
  unfold FilterCore.statementOver at h
  split at h
  · exact h
  · rename_i admitted hadmitted
    obtain ⟨heads, hheads, hpage⟩ := h
    rw [FilterCore.page_returns dialect place hlimit _ rfl] at hpage
    show Select.Returns _ _ _ _ _ _
    rw [FilterCore.page_returns dialect place hlimit _ rfl]
    have hgroups : List.Forall₂ (fun group head =>
        IsPage (sortKey place filter.orderBy) group filter.depth.toNat 0 head)
        (((branches.filter filter.admits).map (filter.seek dialect now)).map fun seek =>
          rows.filter (selects (dialect.backend lower call) rows seek.conditions)) heads := by
      rw [List.forall₂_map_left_iff] at hheads ⊢
      rw [List.forall₂_map_left_iff]
      exact hheads
    rw [List.filter_eq_self.mpr (by simp [selects])] at hpage
    rw [hlimit, Option.getD_some] at hdepth
    refine IsPage.perm ?_ (hpage.of_merged hgroups ?_)
    · exact seeks_perm hscope haddressed hnodup hcovers dialect now lower call
    · rw [depth_toNat (by rwa [hlimit, Option.getD_some]), hlimit, Option.getD_some]
      omega

/-! ## 4. The page of an expanded listing -/

include hscope in
theorem binds_statement : Binds (filter.statement dialect now) ↔
      (filter.limit.getD 0).toNat < 2 ^ 63 ∧ (filter.offset.getD 0).toNat < 2 ^ 63 := by
  obtain ⟨hsome, -⟩ := FilterCore.expansionScope_eq_some hscope
  obtain ⟨limit, hlimit⟩ := Option.isSome_iff_exists.mp hsome
  unfold Binds FilterCore.statement FilterCore.page
  cases filter.offset <;> simp [statementCounts, counts, boundCount, hlimit]

include hscope in
theorem binds_statementOver (hadmitted : branches.filter filter.admits ≠ []) :
    Binds (filter.statementOver branches dialect now) ↔
      filter.depth.toNat < 2 ^ 63 ∧ Binds (filter.statement dialect now) := by
  obtain ⟨hsome, -⟩ := FilterCore.expansionScope_eq_some hscope
  obtain ⟨limit, hlimit⟩ := Option.isSome_iff_exists.mp hsome
  obtain ⟨branch, hbranch⟩ := List.exists_mem_of_ne_nil _ hadmitted
  have hover : filter.statementOver branches dialect now =
      .merged ((branches.filter filter.admits).map (filter.seek dialect now))
        (filter.page dialect { order := filter.orderBy, limit := none }) := by
    unfold FilterCore.statementOver
    split
    · rename_i h
      exact absurd h hadmitted
    · rfl
  rw [hover]
  have hseeks : (∀ n ∈ ((branches.filter filter.admits).map (filter.seek dialect now)).flatMap counts,
      (boundCount n).isSome = true) ↔ filter.depth.toNat < 2 ^ 63 := by
    constructor
    · intro h
      have := h filter.depth.toNat (List.mem_flatMap.mpr ⟨filter.seek dialect now branch,
        List.mem_map_of_mem hbranch, by simp [counts, FilterCore.seek]⟩)
      simpa [boundCount] using this
    · intro h n hn
      obtain ⟨seek, hs, hn⟩ := List.mem_flatMap.mp hn
      obtain ⟨b, -, rfl⟩ := List.mem_map.mp hs
      simp [counts, FilterCore.seek] at hn
      subst hn
      simpa [boundCount] using h
  unfold Binds
  simp only [statementCounts, List.mem_append, or_imp, forall_and, hseeks]
  refine and_congr_right fun _ => ?_
  unfold FilterCore.statement FilterCore.page
  cases filter.offset <;> simp [counts, hlimit]

theorem exists_outcome (rows : List Row) (backend : Backend) (statement : Statement) :
    ∃ outcome, Executes backend place rows statement outcome := by
  by_cases h : Binds statement
  · cases statement with
    | direct select =>
      obtain ⟨result, hresult⟩ := select.exists_returns backend place rows rows
      exact ⟨.page result, h, hresult⟩
    | merged seeks select =>
      have hheads : ∀ seeks : List Select, ∃ heads, List.Forall₂ (fun seek head =>
          seek.Returns backend place rows rows head) seeks heads := by
        intro seeks
        induction seeks with
        | nil => exact ⟨[], .nil⟩
        | cons seek seeks ih =>
          obtain ⟨head, hhead⟩ := seek.exists_returns backend place rows rows
          obtain ⟨heads, hheads⟩ := ih
          exact ⟨head :: heads, .cons hhead hheads⟩
      obtain ⟨heads, hheads⟩ := hheads seeks
      obtain ⟨result, hresult⟩ := select.exists_returns backend place rows heads.flatten
      exact ⟨.page result, h, heads, hheads, hresult⟩
  · exact ⟨.refused, h⟩

/-- The depth of a seek can be bound wherever the page's own counts can. -/
def DepthBinds (filter : FilterCore) : Prop :=
  (filter.limit.getD 0).toNat + (filter.offset.getD 0).toNat < 2 ^ 63 ∨
    2 ^ 63 ≤ (filter.limit.getD 0).toNat ∨ 2 ^ 63 ≤ (filter.offset.getD 0).toNat

include hscope in
theorem samePage_of_returns {backend : Backend} {result result' : List Row}
    (h : (filter.statement dialect now).Returns backend place rows result)
    (h' : (filter.statement dialect now).Returns backend place rows result') :
    SamePage place filter.orderBy rows (selects backend rows
      (filter.node.combined filter.table.schema dialect now)) (.page result) (.page result') := by
  obtain ⟨hsome, -⟩ := FilterCore.expansionScope_eq_some hscope
  obtain ⟨limit, hlimit⟩ := Option.isSome_iff_exists.mp hsome
  have hpage := (FilterCore.page_returns dialect place hlimit _ rfl _ _).mp h
  have hpage' := (FilterCore.page_returns dialect place hlimit _ rfl _ _).mp h'
  refine ⟨hpage.subperm.trans List.filter_sublist.subperm, fun row hr => ?_,
    hpage.keys_eq hpage', fun hsep => ?_⟩
  · exact (List.mem_filter.mp (hpage.subperm.subset hr)).2
  · refine IsPage.eq_of_separated (fun x hx y hy => ?_) hpage hpage'
    obtain ⟨hx, hmx⟩ := List.mem_filter.mp hx
    obtain ⟨hy, hmy⟩ := List.mem_filter.mp hy
    exact hsep x hx y hy hmx hmy

/-- The expansion shows the plain statement's page, whatever each of them comes to. -/
def PreservesPage (filter : FilterCore) (rows : List Row) (branches : List Text)
    (dialect : SqlDialect) (now : Int) (backend : Backend) (place : String → Value → Value.Key) :
    Prop :=
  ∀ expanded plain,
    Executes backend place rows (filter.statementOver branches dialect now) expanded →
    Executes backend place rows (filter.statement dialect now) plain →
    SamePage place filter.orderBy rows
      (selects backend rows (filter.node.combined filter.table.schema dialect now)) expanded plain

include hscope in
/-- Where a seek's depth cannot be bound but the page's counts can, the expansion is refused. -/
theorem not_preservesPage (hadmitted : branches.filter filter.admits ≠ []) (hdepth : ¬ DepthBinds filter) :
    ¬ PreservesPage filter rows branches dialect now (dialect.backend lower call) place := by
  intro h
  rw [DepthBinds, not_or, not_or] at hdepth
  obtain ⟨hsum, hlimit, hoffset⟩ := hdepth
  have hbinds : Binds (filter.statement dialect now) :=
    (binds_statement hscope dialect now).mpr ⟨by omega, by omega⟩
  have hrefused : ¬ Binds (filter.statementOver branches dialect now) := by
    rw [binds_statementOver hscope dialect now hadmitted, depth_toNat (by omega)]
    omega
  obtain ⟨outcome, houtcome⟩ := exists_outcome place rows (dialect.backend lower call)
    (filter.statement dialect now)
  cases outcome with
  | refused => exact houtcome hbinds
  | page result => exact h .refused (.page result) hrefused houtcome

include hscope in
/-- The two statements are bound or refused together. -/
theorem binds_agree (h : branches.filter filter.admits = [] ∨ DepthBinds filter) :
    Binds (filter.statementOver branches dialect now) ↔ Binds (filter.statement dialect now) := by
  by_cases hadmitted : branches.filter filter.admits = []
  · rw [FilterCore.statementOver, hadmitted]
  · have hdepth := h.resolve_left hadmitted
    rw [binds_statementOver hscope dialect now hadmitted, binds_statement hscope dialect now]
    refine ⟨fun h => h.2, fun hpage => ⟨?_, hpage⟩⟩
    unfold DepthBinds at hdepth
    rw [depth_toNat (by omega)]
    omega

include hscope haddressed hnodup hcovers in
theorem preservesPage (h : branches.filter filter.admits = [] ∨ DepthBinds filter) :
    PreservesPage filter rows branches dialect now (dialect.backend lower call) place := by
  have hagree := binds_agree hscope dialect now h
  intro expanded plain hexpanded hplain
  match expanded, plain with
  | .refused, .refused => trivial
  | .refused, .page result => exact absurd (hagree.mpr hplain.1) hexpanded
  | .page result, .refused => exact absurd (hagree.mp hexpanded.1) hplain
  | .page result, .page result' =>
    obtain ⟨hbinds, hreturns⟩ := hexpanded
    obtain ⟨hl, ho⟩ := (binds_statement hscope dialect now).mp (hagree.mp hbinds)
    exact samePage_of_returns hscope dialect now place
      (returns_of_over hscope haddressed hnodup hcovers dialect now lower call place (by omega)
        hreturns) hplain.2

include hscope haddressed hnodup hcovers in
/-- **The expansion shows the plain statement's page exactly when the depth of a seek can be bound**, or no
    branch is admitted and there is no seek. -/
theorem preservesPage_iff :
    PreservesPage filter rows branches dialect now (dialect.backend lower call) place ↔
      branches.filter filter.admits = [] ∨ DepthBinds filter := by
  constructor
  · intro h
    by_contra hneither
    rw [not_or] at hneither
    exact not_preservesPage hscope dialect now lower call place hneither.1 hneither.2 h
  · exact preservesPage hscope haddressed hnodup hcovers dialect now lower call place

end Pages

/-- The selector `@deck:all`. -/
def deckAll : AddressSelector where
  segments := ["@deck:all".toList]
  valid := by decide
  nonempty := by decide

/-- A listing of the logs under the deck. -/
def deckLogs (limit offset : UInt64) : FilterCore where
  table := .logs
  node := .node { address := some deckAll } [] []
  order := []
  limit := some limit
  offset := some offset
  wellFormed := by
    refine .node _ _ _ ⟨by simp, by simp, fun _ => ⟨field "address" .address, ?_, rfl⟩, by simp,
      by simp⟩ (by simp) (by simp)
    decide

/-- Two log rows, of the deck and of its motor. -/
def deckRows : List Row :=
  ["@deck".toList, "@deck.motor".toList].map fun address key =>
    if key = "address" then .text address else .text "2024-01-01 00:00:00.000000".toList

theorem deckLogs_scope (limit offset : UInt64) : (deckLogs limit offset).expansionScope =
    some { literals := ["@deck".toList], prefixes := ["@deck.".toList] } := rfl

theorem preservesPage_iff_deckLogs :
    PreservesPage (deckLogs 1 1) deckRows ["@deck".toList, "@deck.motor".toList] .sqliteText 0
      (SqlDialect.sqliteText.backend id fun _ _ => .null) (fun _ v => v.key) :=
  (preservesPage_iff (deckLogs_scope 1 1) (by unfold Addressed; decide) (by decide)
    (by unfold Covers; decide) .sqliteText 0 id (fun _ _ => .null)
    (fun _ v => v.key)).mpr (.inr (.inl (by decide)))

/-- With an offset just below `2 ^ 63` the plain statement is bound and the expanded one is not. -/
theorem not_preservesPage_deckLogs :
    ¬ PreservesPage (deckLogs 1 9223372036854775807) deckRows
      ["@deck".toList, "@deck.motor".toList] .sqliteText 0
      (SqlDialect.sqliteText.backend id fun _ _ => .null) (fun _ v => v.key) :=
  not_preservesPage (deckLogs_scope 1 9223372036854775807) .sqliteText 0 id (fun _ _ => .null)
    (fun _ v => v.key) (by decide) (by simp [DepthBinds, deckLogs])

/-! ## 5. Discovery and the listing -/

section Discovery

variable {filter : FilterCore} {scope : Scope} (hscope : filter.expansionScope = some scope)
variable {rows : List Row} (haddressed : Addressed rows)
variable (dialect : SqlDialect) (now : Int) (lower : Char → Char)
variable (call : String → List Value → Value) (place : String → Value → Value.Key)

/-- Discovery gave up, or found every stored address that the selector takes. -/
def Discovered (filter : FilterCore) (addresses : List Text) (scope : Scope) : Prop :=
  BRANCH_CAP < (discoverBranches addresses scope).length ∨
    ∀ a ∈ addresses, filter.admits a = true → a ∈ discoverBranches addresses scope

include hscope in
theorem discovered_iff (addresses : List Text) :
    Discovered filter addresses scope ↔ CapCountsBranches addresses scope filter.admits := by
  obtain ⟨-, -, selector, hselector, hscopeEq, hwalks⟩ := FilterCore.expansionScope_eq_some hscope
  refine discover_complete_iff addresses scope (Scope.ranges_ne_nil hwalks) filter.admits ?_
  intro a ha hadmits
  have hmatches : selector.matches a filter.node.own.root = true := by
    simpa [FilterCore.admits, hselector] using hadmits
  rw [← hscopeEq]
  exact selector.scope_covers filter.node.own.root addresses a ha hmatches

include hscope haddressed in
theorem listing_reads (h : Discovered filter (rows.map addressOf) scope) {row : Row} (hr : row ∈ rows)
    (hreads : (filter.statement dialect now).Reads (dialect.backend lower call) rows row) :
    (filter.listingStatement (rows.map addressOf) dialect now).Reads (dialect.backend lower call) rows row := by
  unfold FilterCore.listingStatement
  rw [hscope]
  dsimp only
  split
  · exact hreads
  · rename_i hexpand
    rw [not_or] at hexpand
    obtain ⟨hrest, hadmits⟩ := (selects_combined hscope (haddressed row hr)).mp hreads
    have hbranch : addressOf row ∈ (discoverBranches (rows.map addressOf) scope).filter
        filter.admits :=
      List.mem_filter.mpr
        ⟨h.resolve_left hexpand.2 _ (List.mem_map_of_mem hr) hadmits, hadmits⟩
    unfold FilterCore.statementOver
    split
    · exact hreads
    · refine ⟨⟨filter.seek dialect now (addressOf row), List.mem_map_of_mem hbranch, ?_⟩, rfl⟩
      rw [selects_seek (haddressed row hr), hrest]
      simp

include hscope haddressed in
/-- **The listing loses no branch exactly when the cap counts branches**: where the literals and the first
    ranges come to more entries than the cap, they come to more addresses too, or to all of them. -/
theorem discovery_complete_iff :
    (Discovered filter (rows.map addressOf) scope ∧
      ∀ row ∈ rows, (filter.statement dialect now).Reads (dialect.backend lower call) rows row →
        (filter.listingStatement (rows.map addressOf) dialect now).Reads
          (dialect.backend lower call) rows row) ↔
      CapCountsBranches (rows.map addressOf) scope filter.admits := by
  rw [← discovered_iff hscope]
  constructor
  · intro h
    exact h.1
  · intro h
    exact ⟨h, fun row hr hreads =>
      listing_reads hscope haddressed dialect now lower call h hr hreads⟩

/-- However the statements are run, the listing shows the plain statement's page. -/
def ListsPage (filter : FilterCore) (rows : List Row) (dialect : SqlDialect) (now : Int) (backend : Backend)
    (place : String → Value → Value.Key) : Prop :=
  ∀ listed plain,
    Executes backend place rows (filter.listingStatement (rows.map addressOf) dialect now) listed →
    Executes backend place rows (filter.statement dialect now) plain →
      SamePage place filter.orderBy rows
        (selects backend rows (filter.node.combined filter.table.schema dialect now)) listed plain

include hscope haddressed in
/-- **The listing shows the plain statement's page** where the cap counts branches and the depth of a seek
    can be bound. -/
theorem listing_lists_page (hcap : CapCountsBranches (rows.map addressOf) scope filter.admits)
    (hdepth : DepthBinds filter) : ListsPage filter rows dialect now (dialect.backend lower call) place := by
  intro listed plain hlisted hplain
  have hfound := (discovered_iff hscope (rows.map addressOf)).mpr hcap
  unfold FilterCore.listingStatement at hlisted
  rw [hscope] at hlisted
  dsimp only at hlisted
  split at hlisted
  · match listed, plain with
    | .refused, .refused => trivial
    | .refused, .page _ => exact absurd hplain.1 hlisted
    | .page _, .refused => exact absurd hlisted.1 hplain
    | .page _, .page _ => exact samePage_of_returns hscope dialect now place hlisted.2 hplain.2
  · rename_i hexpand
    rw [not_or] at hexpand
    refine preservesPage hscope haddressed (discoverBranches_spec _ _).2.1 (fun row hr hadmits => ?_)
      dialect now lower call place (.inr hdepth) listed plain hlisted hplain
    exact hfound.resolve_left hexpand.2 _ (List.mem_map_of_mem hr) hadmits

end Discovery

/-- The selector `@site:all|@site.node:all|@other:all`. -/
def siteAll : AddressSelector where
  segments := ["@site:all".toList, "@site.node:all".toList, "@other:all".toList]
  valid := by decide
  nonempty := by decide

/-- A listing of the logs under the sites. -/
def siteLogs : FilterCore where
  table := .logs
  node := .node { address := some siteAll } [] []
  order := []
  limit := some 10
  offset := none
  wellFormed := by
    refine .node _ _ _ ⟨by simp, by simp, fun _ => ⟨field "address" .address, ?_, rfl⟩, by simp,
      by simp⟩ (by simp) (by simp)
    decide

def siteScope : Scope where
  literals := ["@site".toList, "@site.node".toList, "@other".toList]
  prefixes := ["@site.".toList, "@site.node.".toList, "@other.".toList]

theorem siteLogs_scope : siteLogs.expansionScope = some siteScope := rfl

/-- The node's modules, `@site.node.m000` and so on. -/
def siteModule (i : Nat) : Text := "@site.node.m".toList ++ fixed 3 i

/-- As many modules of the node as given, and one of the other site. -/
def siteAddresses (modules : Nat) : List Text :=
  (List.range modules).map siteModule ++ ["@other.m".toList]

def rowAt (address : Text) : Row := fun key => if key = "address" then .text address else .text []

def siteRows (modules : Nat) : List Row := (siteAddresses modules).map rowAt

theorem addressed_rowAt (addresses : List Text) : Addressed (addresses.map rowAt) := by
  intro row hr
  obtain ⟨address, -, rfl⟩ := List.mem_map.mp hr
  rfl

theorem length_siteAddresses (modules : Nat) : (siteAddresses modules).length = modules + 1 := by
  simp [siteAddresses]

theorem addressOf_siteRows (modules : Nat) : (siteRows modules).map addressOf = siteAddresses modules := by
  rw [siteRows, List.map_map]
  exact List.map_id _

theorem siteModule_injOn {n : Nat} (hn : n ≤ 1000) : Set.InjOn siteModule (Finset.range n) := by
  intro i hi j hj h
  have hfixed : fixed 3 i = fixed 3 j := List.append_cancel_left h
  simp only [Finset.coe_range, Set.mem_Iio] at hi hj
  have hnumeral := congrArg (numeral · 0) hfixed
  rw [numeral_fixed (show i < 10 ^ 3 by omega), numeral_fixed (show j < 10 ^ 3 by omega)] at hnumeral
  exact Option.some.inj hnumeral

theorem le_card_stored {stem : Text} (hstem : stem ++ ['.'] <+: "@site.node.m".toList) {n : Nat} (hn : n ≤ 1000) :
    n ≤ (stored (siteAddresses n) (some (stem ++ ['.']), some (Scope.ceiling (stem ++ ['.'])))).card := by
  have hsub : (Finset.range n).image siteModule ⊆
      stored (siteAddresses n) (some (stem ++ ['.']), some (Scope.ceiling (stem ++ ['.']))) := by
    intro a ha
    obtain ⟨i, hi, rfl⟩ := Finset.mem_image.mp ha
    refine mem_stored.mpr ⟨?_, (inRange_stem _ _).mpr (hstem.trans (List.prefix_append _ _))⟩
    exact List.mem_append_left _ (List.mem_map_of_mem (by simpa using hi))
  calc n = ((Finset.range n).image siteModule).card := by
        rw [Finset.card_image_of_injOn (siteModule_injOn hn), Finset.card_range]
    _ ≤ _ := Finset.card_le_card hsub

/-- The first two ranges of the scope come to each module twice. -/
theorem le_counted_siteAddresses {n : Nat} (hn : n ≤ 1000) :
    3 + (n + n) ≤ counted (siteAddresses n) siteScope 2 := by
  have hsite := @le_card_stored "@site".toList (by decide) n hn
  have hnode := @le_card_stored "@site.node".toList (by decide) n hn
  exact Nat.add_le_add_left (Nat.add_le_add hsite hnode) 3

/-- The other site's module is in neither of the first two ranges. -/
theorem other_not_reached (n : Nat) : "@other.m".toList ∉ reached (siteAddresses n) siteScope 2 := by
  rw [mem_reached]
  rintro (h | ⟨range, hr, ha⟩)
  · exact absurd h (by decide)
  · have hrange : range ∈ [(some "@site.".toList, some "@site/".toList),
        (some "@site.node.".toList, some "@site.node/".toList)] := hr
    have hin := (mem_stored.mp ha).2
    rcases List.mem_pair.mp hrange with rfl | rfl
    · exact absurd ((inRange_stem "@site".toList _).mp hin) (by decide)
    · exact absurd ((inRange_stem "@site.node".toList _).mp hin) (by decide)

/-- With 130 modules the two overlapping ranges of the site come to more than 256 entries, which are 130
    addresses, and the walk of the other site is never made. -/
theorem discovery_incomplete_siteLogs :
    ¬ (Discovered siteLogs ((siteRows 130).map addressOf) siteScope ∧
      ∀ row ∈ siteRows 130, (siteLogs.statement .sqliteText 0).Reads
          (SqlDialect.sqliteText.backend id fun _ _ => .null) (siteRows 130) row →
        (siteLogs.listingStatement ((siteRows 130).map addressOf) .sqliteText 0).Reads
          (SqlDialect.sqliteText.backend id fun _ _ => .null) (siteRows 130) row) := by
  rintro ⟨h, -⟩
  rw [discovered_iff siteLogs_scope, addressOf_siteRows] at h
  have hcounted : BRANCH_CAP < counted (siteAddresses 130) siteScope 2 :=
    Nat.lt_of_lt_of_le (by decide) (le_counted_siteAddresses (show 130 ≤ 1000 by omega))
  rcases h 2 (by omega) (by decide) hcounted with hcard | hall
  · have hle := card_reached_le (siteAddresses 130) siteScope 2
    rw [length_siteAddresses] at hle
    have hliterals : siteScope.literals.length = 3 := rfl
    rw [BRANCH_CAP] at hcard
    omega
  · exact other_not_reached 130 (hall _ (List.mem_append_right _ (by simp)) (by decide))

theorem discovery_complete_iff_siteLogs :
    Discovered siteLogs ((siteRows 3).map addressOf) siteScope ∧
      ∀ row ∈ siteRows 3, (siteLogs.statement .sqliteText 0).Reads
          (SqlDialect.sqliteText.backend id fun _ _ => .null) (siteRows 3) row →
        (siteLogs.listingStatement ((siteRows 3).map addressOf) .sqliteText 0).Reads
          (SqlDialect.sqliteText.backend id fun _ _ => .null) (siteRows 3) row :=
  (discovery_complete_iff siteLogs_scope (addressed_rowAt _) .sqliteText 0 id
    fun _ _ => .null).mpr (capCountsBranches_of_few _ _ _ (by decide))

theorem listing_lists_page_siteLogs : ListsPage siteLogs (siteRows 3) .sqliteText 0
    (SqlDialect.sqliteText.backend id fun _ _ => .null) (fun _ v => v.key) :=
  listing_lists_page siteLogs_scope (addressed_rowAt _) .sqliteText 0 id (fun _ _ => .null) (fun _ v => v.key)
    (capCountsBranches_of_few _ _ _ (by decide)) (.inl (by decide))

end Ceres.Database
