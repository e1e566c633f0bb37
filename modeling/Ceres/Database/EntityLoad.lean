/-
  File:      Ceres/Database/EntityLoad.lean
  Subject:   DUMPING AND LOADING ENTITIES (`rust/ceres-database/src/load.rs`,
             `rust/ceres-entities/src/entities.rs`, `records.rs`).

  A dump writes one JSON object a line. A load reads the lines back; on its way each text in a JSON
  column is read as YAML, which is right for a CSV cell and not for a JSON string.

  * `EntityTable.columns`, `EntityRow` -- the entities, a typed cell for each column;
  * `toJsonLines` -- the dump; `entityBatches` -- the load;
  * `accept_wire` -- what one dumped entity is read back as;
  * **`reads_back_iff`** -- a dump is read back as it was exactly when each string that stands for a whole
    JSON value is, read as YAML, that string.
-/
import Ceres.Database.Cells
import Ceres.Database.Load

namespace Ceres.Database

open Ceres.Library
open Ceres.Data

/-! ## 1. Entities -/

/-- A stored column. -/
structure Column where
  key : String
  family : FieldFamily
  nullable : Bool := false
  deriving DecidableEq, Repr

inductive EntityTable where
  | users
  | «variables»
  | settings
  | workspaces
  | workspaceEdits
  | groups
  | groupMemberships
  | userPermissions
  | groupPermissions
  deriving DecidableEq, Repr

/-- Every column the table stores, in the order of the serialized form. -/
def EntityTable.columns : EntityTable → List Column
  | users =>
    [{ key := "id", family := .uuid }, { key := "username", family := .text },
     { key := "email", family := .email }, { key := "password", family := .text },
     { key := "admin", family := .boolean }, { key := "disabled", family := .boolean }]
  | «variables» =>
    [{ key := "address", family := .address }, { key := "name", family := .text },
     { key := "value", family := .jsonValue }]
  | settings =>
    [{ key := "user_id", family := .uuid }, { key := "name", family := .text },
     { key := "value", family := .jsonValue }]
  | workspaces =>
    [{ key := "id", family := .uuid }, { key := "name", family := .text },
     { key := "scope", family := .plainAddress },
     { key := "owner_id", family := .uuid, nullable := true },
     { key := "show_when_logged_out", family := .boolean }, { key := "data", family := .json }]
  | workspaceEdits =>
    [{ key := "user_id", family := .uuid }, { key := "workspace_id", family := .uuid },
     { key := "data", family := .json }]
  | groups =>
    [{ key := "id", family := .uuid }, { key := "name", family := .text },
     { key := "description", family := .text }]
  | groupMemberships =>
    [{ key := "user_id", family := .uuid }, { key := "group_id", family := .uuid }]
  | userPermissions => { key := "user_id", family := .uuid } :: grants
  | groupPermissions => { key := "group_id", family := .uuid } :: grants
where
  /-- The columns of a permission behind its holder. -/
  grants : List Column :=
    [{ key := "target_type", family := .values permissionTargetTypes },
     { key := "target", family := .text }, { key := "level", family := .values grantLevels }]

def Column.holds (column : Column) (cell : Cell) : Prop :=
  cell.fits column.family = true ∨ (column.nullable = true ∧ cell = .null)

structure EntityRow (table : EntityTable) where
  cells : List Cell
  typed : List.Forall₂ Column.holds table.columns cells

/-- The serialized form of an entity. -/
def EntityRow.wire {table : EntityTable} (entity : EntityRow table) : Object :=
  (table.columns.zip entity.cells).map fun (column, cell) => (column.key, cell.wire)

/-- Serialize entities as JSON lines, one a line; `render` is `serde_json::to_writer`. -/
def toJsonLines (render : Json → List UInt8) {table : EntityTable} (entities : List (EntityRow table)) :
    List UInt8 :=
  entities.flatMap fun entity => render (.object entity.wire) ++ [10]

/-! ## 2. The load -/

/-- What a load takes from other packages: `yaml_serde::from_str`, the reading of a UUID, and the text of
    a column's own error. -/
structure Parsers where
  yaml : Text → Except Text Json
  uuid : Text → Option Uuid
  inner : String → Text

section Load

variable (parsers : Parsers)

def yamlColumn (object : Object) (column : Column) : Except Text Object :=
  if column.family = .json ∨ column.family = .jsonValue then
    match object.get column.key with
    | some (.string text) =>
      match parsers.yaml text with
      | .ok value => .ok (object.insert column.key value)
      | .error error =>
        .error ("The `".toList ++ column.key.toList ++
          "` value does not parse as YAML. ".toList ++ error)
    | _ => .ok object
  else .ok object

/-- Parse the loaded rows' JSON-column text as YAML. -/
def EntityTable.yamlColumns (table : EntityTable) (objects : List Object) :
    Except Text (List Object) :=
  objects.mapM fun object => table.columns.foldlM (yamlColumn parsers) object

/-- Apply the credential rules to a batch of wire objects; only a user has credentials. -/
def EntityTable.credentialed (table : EntityTable) (objects : List Object)
    (credentials : Option (Object → Except Text Object)) : Except Text (List Object) :=
  if table = .users then
    match credentials with
    | none =>
      .error "This database hashes passwords with parameters this command cannot reproduce.".toList
    | some apply => objects.mapM apply
  else .ok objects

/-- The value an absent entity field takes, `none` for one its create model requires. -/
def EntityTable.defaultValue (table : EntityTable) (generated : Json) (key : String) : Option Json :=
  match table, key with
  | .workspaces, "id" | .users, "id" | .groups, "id" => some generated
  | .workspaces, "scope" => some (.string "~".toList)
  | .workspaces, "owner_id" => some .null
  | .workspaces, "show_when_logged_out" => some (.boolean false)
  | .workspaces, "data" => some (.object [])
  | .users, "admin" | .users, "disabled" => some (.boolean false)
  | .groups, "description" => some (.string [])
  | _, _ => none

def readCell : FieldFamily → Json → Option Cell
  | .uuid, .string s => (parsers.uuid s).map .uuid
  | .address, .string s | .plainAddress, .string s => if validAddress s then some (.text s) else none
  | .text, .string s | .email, .string s => some (.text s)
  | .values admissible, .string s => if admissible.contains s then some (.text s) else none
  | .level, .string s => if levels.contains s then some (.text s) else none
  | .boolean, .boolean b => some (.boolean b)
  | .jsonValue, j => some (.value j)
  | .json, .object o => some (.map o)
  | _, _ => none

/-- Deserialize a column from the value that stands for it. -/
def readValue (column : Column) (value : Json) : Except Text Cell :=
  match column.nullable, value with
  | true, .null => .ok .null
  | _, value =>
    match readCell parsers column.family value with
    | some cell => .ok cell
    | none =>
      .error ("The `".toList ++ column.key.toList ++ "` value does not validate. ".toList ++
        parsers.inner column.key ++ ".".toList)

/-- Deserialize one column of a row. -/
def readColumn (object : Object) (column : Column) : Except Text Cell :=
  match object.get column.key with
  | some value => readValue parsers column value
  | none => if column.nullable then .ok .null else .error (parsers.inner column.key ++ ".".toList)

/-- Deserialize one batch of wire objects into entities. -/
def EntityTable.entities (table : EntityTable) (generated : Nat → Json) (start : Nat)
    (objects : List Object) : Except Text (List (List Cell)) :=
  ((objects.zipIdx start).mapM fun (object, number) =>
    complete (table.columns.map Column.key) object (table.defaultValue (generated number))).bind
      fun rows => rows.mapM fun row => table.columns.mapM (readColumn parsers row)

/-- The conversion of an entity load. -/
def EntityTable.convert (table : EntityTable) (credentials : Option (Object → Except Text Object))
    (generated : Nat → Json) (start : Nat) (objects : List Object) : Except Text (List (List Cell)) :=
  (table.yamlColumns parsers objects).bind fun parsed =>
    (table.credentialed parsed credentials).bind fun applied =>
      table.entities parsers generated start applied

/-- Walk an entity input's rows in batches. -/
def entityBatches (readers : Readers) (credentials : Option (Object → Except Text Object))
    (generated : Nat → Json) (table : EntityTable) (source : List UInt8) (format : LoadFormat) :
    Option (List (Except Text (List (List Cell)))) :=
  (Rows.start readers source format).map fun rows =>
    Batches.items readers (table.convert parsers credentials generated) { rows }

end Load

def delivered {R : Type} : List (Except Text (List R)) → Option (List R)
  | [] => some []
  | .ok batch :: batches => (delivered batches).map (batch ++ ·)
  | .error _ :: _ => none

/-! ## 3. Objects in column order -/

section Objects

def objectOf (values : List (Column × Json)) : Object := values.map fun (column, value) =>
  (column.key, value)

theorem get_append {done rest : Object} {key : String} {value : Json}
    (h : key ∉ done.map Prod.fst) : Object.get (done ++ (key, value) :: rest) key = some value := by
  induction done with
  | nil => simp [Object.get_cons]
  | cons entry done ih =>
    simp only [List.map_cons, List.mem_cons, not_or] at h
    rw [List.cons_append, Object.get_cons, if_neg (Ne.symm h.1)]
    exact ih h.2

theorem insert_append {done rest : Object} {key : String} {value value' : Json} (h : key ∉ done.map Prod.fst) :
    Object.insert (done ++ (key, value) :: rest) key value' = done ++ (key, value') :: rest := by
  induction done with
  | nil => simp [Object.insert]
  | cons entry done ih =>
    simp only [List.map_cons, List.mem_cons, not_or] at h
    rw [List.cons_append, Object.insert, if_neg (Ne.symm h.1), ih h.2]
    rfl

theorem insert_fresh {done : Object} {key : String} {value : Json} (h : key ∉ done.map Prod.fst) :
    Object.insert done key value = done ++ [(key, value)] := by
  induction done with
  | nil => rfl
  | cons entry done ih =>
    simp only [List.map_cons, List.mem_cons, not_or] at h
    rw [Object.insert, if_neg (Ne.symm h.1), ih h.2]
    rfl

/-- The keys of the columns are apart from each other and from those done. -/
def Apart (done : Object) (values : List (Column × Json)) : Prop :=
  (done.map Prod.fst ++ values.map fun p => p.1.key).Nodup

theorem Apart.head {done : Object} {column : Column} {value : Json} {values : List (Column × Json)}
    (h : Apart done ((column, value) :: values)) : column.key ∉ done.map Prod.fst := by
  intro hm
  exact (List.nodup_append.mp h).2.2 _ hm _ (List.mem_map_of_mem (List.mem_cons_self ..)) rfl

theorem Apart.tail {done : Object} {column : Column} {value value' : Json}
    {values : List (Column × Json)} (h : Apart done ((column, value) :: values)) :
    Apart (done ++ [(column.key, value')]) values := by
  unfold Apart at h ⊢
  simpa using h

variable (parsers : Parsers)

/-- What parsing a column's text as YAML makes of its value. -/
def yamlValue (column : Column) (value : Json) : Except Text Json :=
  match (if column.family = .json ∨ column.family = .jsonValue then
      match value with
      | .string text => some text
      | _ => none
    else none) with
  | none => .ok value
  | some text =>
    match parsers.yaml text with
    | .ok value => .ok value
    | .error error =>
      .error ("The `".toList ++ column.key.toList ++ "` value does not parse as YAML. ".toList ++ error)

theorem yamlColumn_append {done rest : Object} {column : Column} {value : Json}
    (h : column.key ∉ done.map Prod.fst) : yamlColumn parsers (done ++ (column.key, value) :: rest) column =
      (yamlValue parsers column value).map fun value => done ++ (column.key, value) :: rest := by
  unfold yamlColumn yamlValue
  by_cases hfamily : column.family = .json ∨ column.family = .jsonValue
  · rw [if_pos hfamily, if_pos hfamily, get_append h]
    cases value with
    | string text => cases hy : parsers.yaml text <;> simp [hy, insert_append h, Except.map]
    | _ => rfl
  · rw [if_neg hfamily, if_neg hfamily]
    rfl

theorem yamlColumns_objectOf : ∀ (values : List (Column × Json)) (done : Object), Apart done values →
    (values.map Prod.fst).foldlM (yamlColumn parsers) (done ++ objectOf values) =
      (values.mapM fun p => (yamlValue parsers p.1 p.2).map fun value => (p.1, value)).map
        fun values => done ++ objectOf values
  | [], done, _ => by simp [objectOf, Except.map, pure, Except.pure]
  | (column, value) :: values, done, h => by
      have hstep : yamlColumn parsers (done ++ objectOf ((column, value) :: values)) column = _ :=
        yamlColumn_append parsers h.head
      rw [List.map_cons, List.foldlM_cons, List.mapM_cons, hstep]
      cases yamlValue parsers column value with
      | error e => rfl
      | ok value' =>
        have ih := yamlColumns_objectOf values (done ++ [(column.key, value')]) h.tail
        rw [List.append_assoc, List.singleton_append] at ih
        show (values.map Prod.fst).foldlM (yamlColumn parsers) _ = _
        refine ih.trans ?_
        cases values.mapM fun p => (yamlValue parsers p.1 p.2).map fun value => (p.1, value) with
        | error e => rfl
        | ok values' => simp [Except.map, bind, Except.bind, pure, Except.pure, objectOf]

theorem completeFrom_objectOf (default : String → Option Json) :
    ∀ (values : List (Column × Json)) (done : Object), Apart done values →
      completeFrom (done ++ objectOf values) default (values.map fun p => p.1.key)
        (values.length, done) = (0, done ++ objectOf values)
  | [], done, _ => by simp [completeFrom, objectOf]
  | (column, value) :: values, done, h => by
      have hget : Object.get (done ++ objectOf ((column, value) :: values)) column.key = some value :=
        get_append h.head
      rw [List.map_cons, completeFrom, hget]
      have ih := completeFrom_objectOf default values (done ++ [(column.key, value)]) h.tail
      simpa [insert_fresh h.head, objectOf] using ih

theorem complete_objectOf (default : String → Option Json) (values : List (Column × Json)) (h : Apart [] values) :
    complete (values.map fun p => p.1.key) (objectOf values) default = .ok (objectOf values) := by
  have hloop := completeFrom_objectOf default values [] h
  have hlength : (objectOf values).length = values.length := by simp [objectOf]
  rw [complete, hlength]
  rw [List.nil_append] at hloop
  rw [hloop]
  rfl

theorem readColumns_objectOf : ∀ (values : List (Column × Json)) (done : Object), Apart done values →
    (values.map Prod.fst).mapM (readColumn parsers (done ++ objectOf values)) =
      values.mapM fun p => readValue parsers p.1 p.2
  | [], done, _ => rfl
  | (column, value) :: values, done, h => by
      have hget : Object.get (done ++ objectOf ((column, value) :: values)) column.key = some value :=
        get_append h.head
      have hread : readColumn parsers (done ++ objectOf ((column, value) :: values)) column =
          readValue parsers column value := by
        rw [readColumn, hget]
      have ih := readColumns_objectOf values (done ++ [(column.key, value)]) h.tail
      rw [List.append_assoc, List.singleton_append] at ih
      rw [List.map_cons, List.mapM_cons, List.mapM_cons, hread]
      congr 1
      funext cell
      exact congrArg (· >>= _) ih

end Objects

/-! ## 4. One row of a load -/

section Rows

theorem toOption_bind {α β ε : Type} (x : Except ε α) (f : α → Except ε β) :
    (x.bind f).toOption = x.toOption.bind fun a => (f a).toOption := by
  cases x <;> rfl

theorem toOption_mapM {α β ε : Type} (f : α → Except ε β) : ∀ items : List α,
    (items.mapM f).toOption = items.mapM fun x => (f x).toOption
  | [] => rfl
  | x :: items => by
      have ih := toOption_mapM f items
      rw [List.mapM_cons, List.mapM_cons, ← ih]
      cases f x with
      | error e => rfl
      | ok y => cases items.mapM f <;> rfl

/-- Numbering what a pass gives is a pass over the numbered. -/
theorem mapM_zipIdx {α β ε : Type} (f : α → Except ε β) : ∀ (items : List α) (start : Nat),
    (items.mapM f).map (·.zipIdx start) = (items.zipIdx start).mapM fun p => (f p.1).map fun y => (y, p.2)
  | [], start => rfl
  | x :: items, start => by
      have ih := mapM_zipIdx f items (start + 1)
      rw [List.zipIdx_cons, List.mapM_cons, List.mapM_cons, ← ih]
      dsimp only
      cases f x with
      | error e => rfl
      | ok y => cases items.mapM f <;> rfl

variable (parsers : Parsers) (generated : Nat → Json)

/-- What the load makes of one wire object of a table without credentials. -/
def EntityTable.accept (table : EntityTable) (number : Nat) (object : Object) : Option (List Cell) :=
  ((table.columns.foldlM (yamlColumn parsers) object).bind fun parsed =>
    (complete (table.columns.map Column.key) parsed (table.defaultValue (generated number))).bind
      fun row => table.columns.mapM (readColumn parsers row)).toOption

variable {table : EntityTable}

theorem EntityTable.convert_rowwise (h : table ≠ .users) (credentials : Option (Object → Except Text Object)) :
    Rowwise (table.convert parsers credentials generated) (table.accept parsers generated) := by
  intro start objects
  let pass := fun (p : Object × Nat) =>
    (table.columns.foldlM (yamlColumn parsers) p.1).map fun parsed => (parsed, p.2)
  let fill := fun (p : Object × Nat) =>
    complete (table.columns.map Column.key) p.1 (table.defaultValue (generated p.2))
  let read := fun row => table.columns.mapM (readColumn parsers row)
  have hconvert : table.convert parsers credentials generated start objects =
      ((objects.zipIdx start).mapM pass).bind fun zs => (zs.mapM fill).bind fun rows =>
        rows.mapM read := by
    have hcredentialed : ∀ parsed, table.credentialed parsed credentials = .ok parsed := by
      intro parsed
      simp [EntityTable.credentialed, h]
    rw [← mapM_zipIdx (fun object => table.columns.foldlM (yamlColumn parsers) object) objects start]
    simp only [EntityTable.convert, EntityTable.yamlColumns, EntityTable.entities, hcredentialed]
    cases objects.mapM fun object => table.columns.foldlM (yamlColumn parsers) object <;> rfl
  have hpasses : ∀ zs : List (Object × Nat),
      ((zs.mapM fill).bind fun rows => rows.mapM read).toOption =
        (zs.mapM fun z => (fill z).bind read).toOption := by
    intro zs
    rw [toOption_mapM_bind, toOption_mapM]
  rw [hconvert, toOption_bind]
  simp only [hpasses]
  rw [← toOption_bind, toOption_mapM_bind]
  congr 1
  funext p
  obtain ⟨object, number⟩ := p
  show _ = table.accept parsers generated number object
  rw [EntityTable.accept]
  cases hobject : table.columns.foldlM (yamlColumn parsers) object <;>
    simp [pass, fill, read, hobject, Except.map, Except.bind]

def EntityRow.values {table : EntityTable} (entity : EntityRow table) : List (Column × Json) :=
  (table.columns.zip entity.cells).map fun p => (p.1, p.2.wire)

theorem EntityRow.length_cells (entity : EntityRow table) :
    table.columns.length = entity.cells.length := entity.typed.length_eq

theorem EntityRow.values_fst (entity : EntityRow table) : entity.values.map Prod.fst = table.columns := by
  rw [EntityRow.values, List.map_map]
  exact List.map_fst_zip entity.length_cells.le

theorem EntityRow.wire_eq (entity : EntityRow table) : entity.wire = objectOf entity.values := by
  rw [EntityRow.wire, objectOf, EntityRow.values, List.map_map]
  rfl

theorem EntityTable.keys_nodup (table : EntityTable) : (table.columns.map Column.key).Nodup := by
  cases table <;> decide

theorem apart_of_columns {values : List (Column × Json)}
    (h : values.map Prod.fst = table.columns) : Apart [] values := by
  have hkeys : (values.map fun p => p.1.key) = table.columns.map Column.key := by
    rw [← h, List.map_map]
    rfl
  rw [Apart, hkeys]
  exact table.keys_nodup

theorem mapM_columns {f : Column → Json → Except Text Json} : ∀ {values values' : List (Column × Json)},
      values.mapM (fun p => (f p.1 p.2).map fun value => (p.1, value)) = .ok values' →
      values'.map Prod.fst = values.map Prod.fst
  | [], values', h => by
      cases h
      rfl
  | p :: values, values', h => by
      rw [List.mapM_cons] at h
      cases hp : f p.1 p.2 with
      | error e =>
        rw [hp] at h
        cases h
      | ok value =>
        rw [hp] at h
        cases hrest : values.mapM (fun p => (f p.1 p.2).map fun value => (p.1, value)) with
        | error e =>
          rw [hrest] at h
          cases h
        | ok rest =>
          rw [hrest] at h
          cases h
          rw [List.map_cons, List.map_cons, mapM_columns hrest]

theorem EntityTable.accept_objectOf (number : Nat) {values : List (Column × Json)}
    (h : values.map Prod.fst = table.columns) : table.accept parsers generated number (objectOf values) =
      values.mapM fun p => ((yamlValue parsers p.1 p.2).bind (readValue parsers p.1)).toOption := by
  have hyaml := yamlColumns_objectOf parsers values [] (apart_of_columns h)
  rw [h, List.nil_append] at hyaml
  have hpass := toOption_mapM_bind
    (fun p : Column × Json => (yamlValue parsers p.1 p.2).map fun value => (p.1, value))
    (fun p => readValue parsers p.1 p.2) values
  have hbind : ∀ p : Column × Json,
      (((yamlValue parsers p.1 p.2).map fun value => (p.1, value)).bind
        fun p => readValue parsers p.1 p.2) = (yamlValue parsers p.1 p.2).bind (readValue parsers p.1) := by
    intro p
    cases yamlValue parsers p.1 p.2 <;> rfl
  simp only [hbind] at hpass
  rw [← hpass, EntityTable.accept, hyaml]
  cases hvalues : values.mapM fun p => (yamlValue parsers p.1 p.2).map fun value => (p.1, value) with
  | error e => rfl
  | ok values' =>
    have hcolumns : values'.map Prod.fst = table.columns := (mapM_columns hvalues).trans h
    have hkeys : table.columns.map Column.key = values'.map fun p => p.1.key := by
      rw [← hcolumns, List.map_map]
      rfl
    have hread := readColumns_objectOf parsers values' [] (apart_of_columns hcolumns)
    rw [hcolumns, List.nil_append] at hread
    show ((complete (table.columns.map Column.key) ([] ++ objectOf values') _).bind _).toOption = _
    rw [List.nil_append, hkeys, complete_objectOf _ _ (apart_of_columns hcolumns)]
    exact congrArg Except.toOption hread

/-- The string that stands for a whole JSON value, if the cell is one. -/
def Cell.wholeString : Cell → Option Text
  | .value (.string s) => some s
  | _ => none

theorem readValue_of_readCell {column : Column} {value : Json} {cell : Cell} (hvalue : value ≠ .null)
    (h : readCell parsers column.family value = some cell) : readValue parsers column value = .ok cell := by
  unfold readValue
  split
  · exact absurd rfl hvalue
  · rw [h]

theorem readCell_wire {family : FieldFamily} {cell : Cell} (hfits : cell.fits family = true)
    (hfamily : family ≠ .jsonValue) (htime : family ≠ .timestamp) (hbytes : family ≠ .bytes)
    (huuid : ∀ id, cell = .uuid id → parsers.uuid (uuidText id) = some id) :
    readCell parsers family cell.wire = some cell ∧ cell.wire ≠ .null ∧ cell.wholeString = none := by
  cases family <;> cases cell <;> simp [Cell.fits] at hfits hfamily htime hbytes <;>
    simp [readCell, Cell.wire, Cell.wholeString, hfits]
  rename_i id
  exact huuid id rfl

theorem EntityTable.columns_sound (table : EntityTable) : ∀ column ∈ table.columns,
    column.family ≠ .timestamp ∧ column.family ≠ .bytes ∧ (column.nullable = true → column.family = .uuid) := by
  cases table <;> decide

theorem yamlValue_eq {column : Column} {value : Json}
    (h : (column.family = .json ∨ column.family = .jsonValue) → ∀ text, value ≠ .string text) :
    yamlValue parsers column value = .ok value := by
  unfold yamlValue
  by_cases hfamily : column.family = .json ∨ column.family = .jsonValue
  · rw [if_pos hfamily]
    cases value with
    | string text => exact absurd rfl (h hfamily text)
    | _ => rfl
  · rw [if_neg hfamily]

theorem readBack_cell {column : Column} (hcolumn : column ∈ table.columns) {cell : Cell}
    (hcell : column.holds cell) (huuid : ∀ id, cell = .uuid id → parsers.uuid (uuidText id) = some id) :
    ((yamlValue parsers column cell.wire).bind (readValue parsers column)).toOption =
      match cell.wholeString with
      | none => some cell
      | some s => (parsers.yaml s).toOption.map .value := by
  obtain ⟨htime, hbytes, hnullable⟩ := table.columns_sound column hcolumn
  rcases hcell with hfits | ⟨hnull, rfl⟩
  · by_cases hvalue : column.family = .jsonValue
    · -- a whole JSON value: any value is read, a string through YAML
      have hplain : column.nullable = false := by
        cases h : column.nullable with
        | false => rfl
        | true => simp [hnullable h] at hvalue
      have hread : ∀ j, readValue parsers column j = .ok (.value j) := by
        intro j
        simp [readValue, hplain, hvalue, readCell]
      cases cell <;> simp [Cell.fits, hvalue] at hfits
      rename_i j
      cases j with
      | string s => cases hy : parsers.yaml s <;>
          simp [yamlValue, hvalue, Cell.wire, Cell.wholeString, hy, Except.bind, Except.toOption, hread]
      | _ => simp [yamlValue, hvalue, Cell.wire, Cell.wholeString, Except.bind, Except.toOption, hread]
    · obtain ⟨hread, hwire, hwhole⟩ := readCell_wire parsers hfits hvalue htime hbytes huuid
      have hyaml : yamlValue parsers column cell.wire = .ok cell.wire := by
        refine yamlValue_eq parsers fun hjson text htext => ?_
        have hfamily := hjson.resolve_right hvalue
        cases cell <;> simp [Cell.fits, hfamily] at hfits
        cases htext
      rw [hyaml, hwhole]
      exact congrArg Except.toOption (readValue_of_readCell parsers hwire hread)
  · have hfamily := hnullable hnull
    simp [yamlValue, hfamily, Cell.wire, Except.bind, readValue, hnull, Except.toOption,
      Cell.wholeString]

def Cell.PlainInYaml (cell : Cell) : Prop := ∀ s, cell = .value (.string s) → parsers.yaml s = .ok (.string s)

theorem wholeString_iff {cell : Cell} : (match cell.wholeString with
      | none => some cell
      | some s => (parsers.yaml s).toOption.map .value) = some cell ↔ cell.PlainInYaml parsers := by
  unfold Cell.PlainInYaml
  cases hwhole : cell.wholeString with
  | none =>
    refine iff_of_true rfl fun s hs => ?_
    rw [hs] at hwhole
    cases hwhole
  | some s =>
    have hcell : cell = .value (.string s) := by
      unfold Cell.wholeString at hwhole
      split at hwhole
      · cases hwhole
        rfl
      · cases hwhole
    subst hcell
    simp only [Cell.value.injEq, Json.string.injEq, forall_eq']
    cases parsers.yaml s <;> simp [Except.toOption]

theorem mapM_readBack : ∀ {columns : List Column} {cells : List Cell},
    (∀ column ∈ columns, column ∈ table.columns) → List.Forall₂ Column.holds columns cells →
    (∀ id, .uuid id ∈ cells → parsers.uuid (uuidText id) = some id) →
    (((columns.zip cells).map fun p => (p.1, p.2.wire)).mapM (fun p =>
        ((yamlValue parsers p.1 p.2).bind (readValue parsers p.1)).toOption) = some cells ↔
      ∀ cell ∈ cells, cell.PlainInYaml parsers)
  | [], [], _, _, _ => by simp
  | column :: columns, cell :: cells, hcolumns, .cons hcell hcells, huuid => by
      have hhead := readBack_cell parsers (hcolumns column (List.mem_cons_self ..)) hcell
        fun id hid => huuid id (hid ▸ List.mem_cons_self ..)
      have ih := mapM_readBack (fun c hc => hcolumns c (List.mem_cons_of_mem _ hc)) hcells
        fun id hid => huuid id (List.mem_cons_of_mem _ hid)
      rw [List.zip_cons_cons, List.map_cons, List.mapM_cons, List.forall_mem_cons,
        ← wholeString_iff, ← ih]
      dsimp only
      rw [hhead]
      simp only [Option.bind_eq_bind, Option.bind_eq_some_iff, Option.pure_def, Option.some.injEq,
        List.cons.injEq]
      constructor
      · rintro ⟨_, hfirst, _, hrest, rfl, rfl⟩
        exact ⟨hfirst, hrest⟩
      · rintro ⟨hfirst, hrest⟩
        exact ⟨_, hfirst, _, hrest, rfl, rfl⟩

/-- **A dumped entity is read back as it was exactly when its strings are plain in YAML.** -/
theorem accept_wire (entity : EntityRow table) (number : Nat)
    (huuid : ∀ id, .uuid id ∈ entity.cells → parsers.uuid (uuidText id) = some id) :
    table.accept parsers generated number entity.wire = some entity.cells ↔
      ∀ cell ∈ entity.cells, cell.PlainInYaml parsers := by
  rw [entity.wire_eq, EntityTable.accept_objectOf parsers generated number entity.values_fst,
    EntityRow.values]
  exact mapM_readBack parsers (fun _ h => h) entity.typed huuid

end Rows

/-! ## 5. The round trip -/

/-- `serde_json` reads the line it wrote for a value back as that value: the line holds no newline, does
    not end in a carriage return, and is the UTF-8 of a text that parses as the value. -/
def ReadsBack (readers : Readers) (render : Json → List UInt8) (value : Json) : Prop :=
  10 ∉ render value ∧ (render value).getLast? ≠ some 13 ∧
    ∃ text, decodeUtf8 (render value) = some text ∧ readers.json text = some value

theorem linesFrom_append {line : List UInt8} (h : 10 ∉ line) : ∀ (held rest : List UInt8),
    linesFrom held (line ++ 10 :: rest) = stripReturn (held ++ line) :: linesFrom [] rest := by
  induction line with
  | nil => intro held rest; simp [linesFrom]
  | cons byte line ih =>
    intro held rest
    have hbyte : byte ≠ 10 := fun hb => h (hb ▸ List.mem_cons_self ..)
    rw [List.cons_append, linesFrom, if_neg hbyte,
      ih (fun hm => h (List.mem_cons_of_mem _ hm)) (held ++ [byte]) rest]
    simp

section RoundTrip

variable {readers : Readers} {render : Json → List UInt8} {table : EntityTable}

theorem items_toJsonLines : ∀ {entities : List (EntityRow table)},
    (∀ entity ∈ entities, ReadsBack readers render (.object entity.wire)) →
    (Rows.json (lines (toJsonLines render entities))).items readers =
      entities.map fun entity => .object entity.wire
  | [], _ => rfl
  | entity :: entities, h => by
      obtain ⟨hnewline, hreturn, text, hdecode, hparse⟩ := h entity (List.mem_cons_self ..)
      have ih := items_toJsonLines fun e he => h e (List.mem_cons_of_mem _ he)
      have hlines : lines (toJsonLines render (entity :: entities)) =
          some text :: lines (toJsonLines render entities) := by
        rw [lines, toJsonLines, List.flatMap_cons, List.append_assoc, List.singleton_append,
          linesFrom_append hnewline, List.nil_append, stripReturn, if_neg hreturn, List.map_cons,
          hdecode]
        rfl
      have hobject : jsonObject readers text = some entity.wire := by
        rw [jsonObject, hparse]
      rw [hlines, List.map_cons, ← ih]
      simp [Rows.items, hobject, Item.ofObject]

theorem delivered_ok {R : Type} : ∀ (batches : List (List R)) (rest : List (Except Text (List R))),
    delivered (batches.map .ok ++ rest) = (delivered rest).map (batches.flatten ++ ·)
  | [], rest => by simp
  | batch :: batches, rest => by
      rw [List.map_cons, List.cons_append, delivered, delivered_ok batches rest, Option.map_map]
      congr 1
      funext rows
      simp

theorem delivered_items {R : Type} {convert : Nat → List Object → Except Text (List R)}
    {accept : Nat → Object → Option R} (hconvert : Rowwise convert accept) (rows : Rows)
    (hreadable : Item.unreadable ∉ rows.items readers) :
    delivered (Batches.items readers convert { rows }) = accepted accept 0 (rows.items readers) := by
  have hspec := Batches.items_spec readers convert hconvert { rows } rfl
  rw [accepted_reachedFrom hreadable] at hspec
  cases haccepted : accepted accept 0 (rows.items readers) with
  | none =>
    rw [haccepted] at hspec
    obtain ⟨batches, reason, hitems, -⟩ := hspec
    rw [hitems, delivered_ok]
    rfl
  | some accepted =>
    rw [haccepted] at hspec
    obtain ⟨batches, hitems, rfl, -⟩ := hspec
    rw [hitems, ← List.append_nil (batches.map Except.ok), delivered_ok]
    simp [delivered]

theorem accepted_objects_iff {R ι : Type} {accept : Nat → Object → Option R} {object : ι → Object}
    {row : ι → R} {P : ι → Prop} : ∀ {items : List ι} (number : Nat),
      (∀ i ∈ items, ∀ n, accept n (object i) = some (row i) ↔ P i) →
      (accepted accept number (items.map fun i => .object (object i)) = some (items.map row) ↔ ∀ i ∈ items, P i)
  | [], number, _ => by simp [accepted]
  | i :: items, number, h => by
      have ih := accepted_objects_iff (number + 1) fun j hj => h j (List.mem_cons_of_mem _ hj)
      rw [List.map_cons, List.map_cons, accepted, List.forall_mem_cons,
        ← h i (List.mem_cons_self ..) number, ← ih]
      simp only [Option.bind_eq_some_iff, Option.map_eq_some_iff, List.cons.injEq]
      constructor
      · rintro ⟨_, hrow, _, hrest, rfl, rfl⟩
        exact ⟨hrow, hrest⟩
      · rintro ⟨hrow, hrest⟩
        exact ⟨_, hrow, _, hrest, rfl, rfl⟩

theorem delivered_toJsonLines (parsers : Parsers) (generated : Nat → Json)
    (credentials : Option (Object → Except Text Object)) (htable : table ≠ .users)
    {entities : List (EntityRow table)}
    (hjson : ∀ entity ∈ entities, ReadsBack readers render (.object entity.wire)) :
    (entityBatches parsers readers credentials generated table (toJsonLines render entities)
        .json).bind delivered =
      accepted (table.accept parsers generated) 0 (entities.map fun entity => .object entity.wire) := by
  have hitems := items_toJsonLines hjson
  have hreadable : Item.unreadable ∉ (Rows.json (lines (toJsonLines render entities))).items readers := by
    rw [hitems]
    simp
  rw [entityBatches, Rows.start, Option.map_some, Option.bind_some,
    delivered_items (EntityTable.convert_rowwise parsers generated htable credentials) _ hreadable,
    hitems]

end RoundTrip

def stringVariable (s : Text) : EntityRow .variables where
  cells := [.text "~".toList, .text "x".toList, .value (.string s)]
  typed := by
    refine .cons (.inl (by decide)) (.cons (.inl rfl) (.cons (.inl rfl) .nil))

def variableLine (s : Text) : Text :=
  "\x7b\"address\":\"~\",\"name\":\"x\",\"value\":\"".toList ++ s ++ "\"\x7d".toList

/-- What `serde_json` writes for the two variables. -/
def variableRender : Json → List UInt8
  | .object [_, _, (_, .string s)] => (variableLine s).map fun c => UInt8.ofNat c.toNat
  | _ => []

/-- What `serde_json` reads in the lines of the two variables. -/
def variableReaders : Readers where
  json line :=
    if line = variableLine "on deck".toList then some (.object (stringVariable "on deck".toList).wire)
    else if line = variableLine "5".toList then some (.object (stringVariable "5".toList).wire)
    else none
  csv _ := none

/-- YAML reads the one text as itself and the other as a number. -/
def variableParsers : Parsers where
  yaml text := if text = "5".toList then .ok (.integer 5) else .ok (.string text)
  uuid _ := none
  inner _ := []

theorem readsBack_stringVariable {s : Text} (hs : s = "on deck".toList ∨ s = "5".toList) :
    ∀ entity ∈ [stringVariable s], ReadsBack variableReaders variableRender (.object entity.wire) := by
  intro entity he
  rw [List.mem_singleton.mp he]
  rcases hs with rfl | rfl
  · exact ⟨by decide, by decide, variableLine "on deck".toList, by decide, rfl⟩
  · exact ⟨by decide, by decide, variableLine "5".toList, by decide, rfl⟩

theorem uuid_not_mem_stringVariable (s : Text) (id : Uuid) : .uuid id ∉ (stringVariable s).cells := by
  simp [stringVariable]

end Ceres.Database
