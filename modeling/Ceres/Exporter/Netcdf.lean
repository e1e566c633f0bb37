/-
  File:      Ceres/Exporter/Netcdf.lean
  Subject:   THE ROWS OF A NETCDF FILE (`ceres/__internal__/netcdf.py`: `NetCDFVariable`, `NetCDFRows`,
             `_reindex`, `_head`).

  Particles are written row by row into preallocated chunks, each array full of its fill, and the chunks are
  cut and joined into a table. Connection names are numbered as they come and renumbered in sorted order.

  * `NetcdfVariable.stored` -- what a field stores, nothing where it is absent;
  * `NetcdfRows.add`, `NetcdfRows.finish` -- a particle, and the table;
  * `Collected` -- every column of the chunks holds the particles so far; `collected_add`, `collected_all`;
  * **`finish_holds_particles`** -- the rows, connections and elements of the table are those of the particles;
  * `fill_present` -- a field that is there and holds the fill.
-/
import Ceres.Address
import Ceres.Database.Cells
import Ceres.Library.Chunks
import Ceres.Library.Dict
import Ceres.Library.Numeral

namespace Ceres.Exporter.Netcdf

open Ceres.Library
open Ceres.Address (mapM_eq_some)
open Ceres.Database (Uuid uuidText)

/-! ## 1. Values -/

/-- NumPy's codes of the stored types; `str` for text of any length. -/
inductive DType where
  | i1 | u1 | i2 | u2 | i4 | u4 | i8 | u8 | f4 | f8 | str
deriving DecidableEq

/-- One element of an array. -/
inductive Element where
  | int (value : Int)
  | float (value : Numeral)
  | text (value : Text)
deriving DecidableEq

/-- One row of an array, an element or an array of the dimensions behind `time`. -/
inductive Cell where
  | element (value : Element)
  | array (cells : List Cell)

/-- A datetime, in microseconds since the epoch as its clock shows it, with the offset of its zone. -/
structure Moment where
  clock : Int
  offset : Option Int
deriving DecidableEq

/-- A naive datetime is read as UTC. -/
def Moment.instant (moment : Moment) : Int := moment.clock - moment.offset.getD 0

/-- A particle's data, or a field of it. -/
inductive Datum where
  | none
  | bool (value : Bool)
  | int (value : Int)
  | float (value : Numeral)
  | text (value : Text)
  | moment (value : Moment)
  | sequence (items : List Datum)
  | object (fields : List (Text × Datum))

/-- netCDF's fill value of both precisions, 9.969209968386869e36. -/
def FILL_FLOAT : Numeral := .finite (15 * 2 ^ 119)

/-- `_FILL_VALUES`, and the empty text. -/
def fillOf : DType → Element
  | .i1 => .int (-127)
  | .u1 => .int 255
  | .i2 => .int (-32767)
  | .u2 => .int 65535
  | .i4 => .int (-2147483647)
  | .u4 => .int 4294967295
  | .i8 => .int (-9223372036854775806)
  | .u8 => .int 18446744073709551614
  | .f4 => .float FILL_FLOAT
  | .f8 => .float FILL_FLOAT
  | .str => .text []

/-- The least and the greatest integer of a type, if it is one of integers. -/
def integerRange : DType → Option (Int × Int)
  | .i1 => some (-2 ^ 7, 2 ^ 7 - 1)
  | .u1 => some (0, 2 ^ 8 - 1)
  | .i2 => some (-2 ^ 15, 2 ^ 15 - 1)
  | .u2 => some (0, 2 ^ 16 - 1)
  | .i4 => some (-2 ^ 31, 2 ^ 31 - 1)
  | .u4 => some (0, 2 ^ 32 - 1)
  | .i8 => some (-2 ^ 63, 2 ^ 63 - 1)
  | .u8 => some (0, 2 ^ 64 - 1)
  | _ => none

/-- The bytes of an element; an object array holds pointers. -/
def itemSize : DType → Nat
  | .i1 | .u1 => 1
  | .i2 | .u2 => 2
  | .i4 | .u4 | .f4 => 4
  | .i8 | .u8 | .f8 | .str => 8

/-- An integer as an element; out of range it is an error. -/
def storeInt (dtype : DType) (n : Int) : Option Element :=
  match integerRange dtype with
  | some (least, greatest) => if least ≤ n ∧ n ≤ greatest then some (.int n) else none
  | none =>
    match dtype, toDouble n with
    | .f4, .finite q => some (.float (toSingle (.finite q)))
    | .f8, .finite q => some (.float (.finite q))
    | _, _ => none

/-- A value as an element, if it fits the type. -/
def storeElement (dtype : DType) : Datum → Option Element
  | .bool value => storeInt dtype (if value then 1 else 0)
  | .int value => storeInt dtype value
  | .float value =>
    match dtype with
    | .f4 => some (.float (toSingle value))
    | .f8 => some (.float value)
    | _ => none
  | .text value => if dtype = .str then some (.text value) else none
  | _ => none

/-- A value as a row, nested as the shape is. -/
def storeCell (dtype : DType) : List Nat → Datum → Option Cell
  | [], value => (storeElement dtype value).map .element
  | size :: shape, .sequence items =>
    if items.length = size then (items.mapM (storeCell dtype shape)).map .array else none
  | _ :: _, _ => none

structure NetcdfVariable where
  name : Text
  dtype : DType
  path : List Text
  shape : List Nat
  datetime : Bool
deriving DecidableEq

namespace NetcdfVariable

/-- `fill` -/
def fill (var : NetcdfVariable) : Element := fillOf var.dtype

/-- A row of the array as it is allocated, the fill in every element. -/
def fillCell (var : NetcdfVariable) : Cell :=
  var.shape.foldr (fun size cell => .array (List.replicate size cell)) (.element var.fill)

end NetcdfVariable

/-- The attribute at the end of a path, an error where there is none. -/
def walkPath : List Text → Datum → Option Datum
  | [], data => some data
  | _ :: _, .none => some .none
  | name :: path, .object fields => (fields.lookup name).bind (walkPath path)
  | _ :: _, _ => none

namespace NetcdfVariable

/-- `get`; the seconds of a datetime are a quotient of whole numbers, rounded once. -/
def get (var : NetcdfVariable) (data : Datum) : Option Datum :=
  (walkPath var.path data).bind fun value =>
    match value with
    | .none => some .none
    | .moment moment => if var.datetime then some (.float (toDouble (moment.instant / 10 ^ 6))) else some value
    | value => if var.datetime then none else some value

/-- The stored form of the field: an error, nothing where the field is absent, or a row. -/
def stored (var : NetcdfVariable) (data : Datum) : Option (Option Cell) :=
  (var.get data).bind fun value =>
    match value with
    | .none => some none
    | value => (storeCell var.dtype var.shape value).map some

end NetcdfVariable

/-! ## 2. Rows -/

structure Particle where
  timestamp : Moment
  id : Uuid
  connection : Option Text
  data : Datum

/-- An element of `KEY_DTYPE`. -/
structure Key where
  time : Int
  id : Text
deriving DecidableEq

def ID_LENGTH : Nat := 36

/-- `encode_time` -/
def encodeTime (moment : Moment) : Int := moment.instant

/-- The key as it is stored, its text cut at the width of the field. -/
def Particle.key (particle : Particle) : Key := ⟨encodeTime particle.timestamp, (uuidText particle.id).take ID_LENGTH⟩

def NO_CONNECTION : Int := -1

structure Chunk where
  keys : List Key
  connection : List Int
  values : Dict Text (List Cell)

structure NetcdfRows where
  vars : List NetcdfVariable
  chunkRows : Nat
  chunks : List Chunk
  row : Nat
  connections : Dict Text Nat

structure NetcdfTable where
  keys : List Key
  connection : List Int
  connections : List Text
  values : Dict Text (List Cell)

def CHUNK_ROWS : Nat := 65536

def CHUNK_BYTES : Nat := 4 * 1024 * 1024

/-- The key, the connection and the values of a row. -/
def rowBytes (vars : List NetcdfVariable) : Nat :=
  (8 + ID_LENGTH) + 2 + (vars.map fun var => itemSize var.dtype * var.shape.prod).sum

namespace NetcdfRows

/-- `__init__` -/
def new (vars : List NetcdfVariable) : NetcdfRows :=
  let chunkRows := max 1 (min CHUNK_ROWS (CHUNK_BYTES / rowBytes vars))
  ⟨vars, chunkRows, [], chunkRows, []⟩

/-- `__allocate` -/
def allocate (rows : NetcdfRows) : Chunk where
  keys := List.replicate rows.chunkRows ⟨0, []⟩
  connection := List.replicate rows.chunkRows NO_CONNECTION
  values := .ofList (rows.vars.map fun var =>
    (var.name, List.replicate rows.chunkRows var.fillCell))

end NetcdfRows

/-- `setdefault`, with the number of the names so far. -/
def setDefault (connections : Dict Text Nat) (name : Text) : Nat × Dict Text Nat :=
  match connections.get name with
  | some number => (number, connections)
  | none => (connections.length, connections.set name connections.length)

/-- A number as a 16-bit integer. -/
def storeShort (n : Int) : Option Int := if -2 ^ 15 ≤ n ∧ n ≤ 2 ^ 15 - 1 then some n else none

/-- The fields of the particle, each into its array unless it is absent. -/
def writeValues (row : Nat) (data : Datum) :
    List NetcdfVariable → Dict Text (List Cell) → Option (Dict Text (List Cell))
  | [], values => some values
  | var :: vars, values =>
    match var.stored data with
    | none => none
    | some none => writeValues row data vars values
    | some (some cell) =>
      (values.get var.name).bind fun array =>
        writeValues row data vars (values.set var.name (array.set row cell))

/-- The connection's number into the row of a connected particle. -/
def writeConnection (row : Nat) (connection : Option Text) (connections : Dict Text Nat) (array : List Int) :
    Option (List Int × Dict Text Nat) :=
  match connection with
  | none => some (array, connections)
  | some name =>
    (storeShort (setDefault connections name).1).map fun number =>
      (array.set row number, (setDefault connections name).2)

namespace NetcdfRows

/-- A chunk for the next row. -/
def reserve (rows : NetcdfRows) : NetcdfRows :=
  if rows.row = rows.chunkRows then { rows with chunks := rows.chunks ++ [rows.allocate], row := 0 } else rows

/-- The row written into the last chunk; an error where a value does not fit. -/
def write (rows : NetcdfRows) (particle : Particle) : Option NetcdfRows :=
  rows.chunks.getLast?.bind fun chunk =>
    (writeConnection rows.row particle.connection rows.connections chunk.connection).bind
      fun (connection, connections) =>
        (writeValues rows.row particle.data rows.vars chunk.values).map fun values =>
          { rows with
            chunks := rows.chunks.dropLast ++ [⟨chunk.keys.set rows.row particle.key, connection, values⟩]
            row := rows.row + 1
            connections := connections }

def add (rows : NetcdfRows) (particle : Particle) : Option NetcdfRows := rows.reserve.write particle

end NetcdfRows

/-! ## 3. The table -/

/-- `_head` -/
def head (chunk : Chunk) (rows : Nat) : Chunk :=
  ⟨chunk.keys.take rows, chunk.connection.take rows, chunk.values.map fun entry => (entry.1, entry.2.take rows)⟩

/-- An index counted from the end where it is negative. -/
def indexed {α : Type} (array : List α) (index : Int) : Option α :=
  if index < 0 then array[(array.length + index).toNat]? else array[index.toNat]?

/-- `_reindex` -/
def reindex (connection : List Int) (names : List Text) (index : Dict Text Nat) : Option (List Int) :=
  (names.mapM fun name => (index.get name).bind fun position => storeShort position).bind fun positions =>
    connection.mapM (indexed (positions ++ [NO_CONNECTION]))

/-- The array of a var in a chunk. -/
def Chunk.array (name : Text) (chunk : Chunk) : List Cell := (chunk.values.get name).getD []

/-- By code points. -/
def sortedNames (names : List Text) : List Text := names.mergeSort fun a b => decide (a ≤ b)

def NetcdfRows.finish (rows : NetcdfRows) : Option NetcdfTable :=
  let chunks := rows.chunks.modifyLast (head · rows.row)
  let names := rows.connections.keys
  let index := Dict.ofList ((sortedNames names).zipIdx)
  (reindex (chunks.map Chunk.connection).flatten names index).map fun connection =>
    { keys := (chunks.map Chunk.keys).flatten
      connection := connection
      connections := sortedNames names
      values := .ofList (rows.vars.map fun var =>
        (var.name, (chunks.map (Chunk.array var.name)).flatten)) }

def tableOf (vars : List NetcdfVariable) (particles : List Particle) : Option NetcdfTable :=
  (particles.foldlM NetcdfRows.add (.new vars)).bind NetcdfRows.finish

/-! ## 4. The numbers of the connections -/

/-- The names with one more, unless it is there. -/
def withName {ν : Type} [DecidableEq ν] (names : List ν) (name : ν) : List ν :=
  if name ∈ names then names else names ++ [name]

theorem get_zipIdx : ∀ (names : List Text) (start : Nat) (name : Text),
    Dict.get (names.zipIdx start) name = if name ∈ names then some (start + names.idxOf name) else none
  | [], _, _ => rfl
  | first :: names, start, name => by
      rw [List.zipIdx_cons, Dict.get_cons, get_zipIdx names]
      by_cases hfirst : first = name
      · rw [if_pos hfirst, if_pos (hfirst ▸ List.mem_cons_self), ← hfirst, List.idxOf_cons_self, Nat.add_zero]
      · have hmem : name ∈ first :: names ↔ name ∈ names :=
          List.mem_cons.trans (or_iff_right (Ne.symm hfirst))
        have hindex : (first :: names).idxOf name = names.idxOf name + 1 := List.idxOf_cons_ne _ hfirst
        rw [if_neg hfirst, hindex]
        by_cases hname : name ∈ names
        · rw [if_pos hname, if_pos (hmem.mpr hname)]
          congr 1
          omega
        · rw [if_neg hname, if_neg (mt hmem.mp hname)]

theorem setDefault_zipIdx (names : List Text) (name : Text) :
    setDefault names.zipIdx name = ((withName names name).idxOf name, (withName names name).zipIdx) := by
  unfold setDefault withName
  rw [get_zipIdx]
  by_cases hname : name ∈ names
  · simp only [if_pos hname, Nat.zero_add]
  · have hkeys : name ∉ Dict.keys (names.zipIdx : Dict Text Nat) := by
      unfold Dict.keys
      rwa [List.zipIdx_map_fst]
    have hset : Dict.set (names.zipIdx : Dict Text Nat) name names.length = (names ++ [name]).zipIdx := by
      rw [Dict.set_of_absent hkeys, List.zipIdx_append, Nat.zero_add]
      rfl
    simp only [if_neg hname, List.length_zipIdx, hset, List.idxOf_append_of_notMem hname, List.idxOf_cons_self,
      Nat.add_zero]

theorem mem_withName {names : List Text} {name other : Text} :
    other ∈ withName names name ↔ other ∈ names ∨ other = name := by
  unfold withName
  by_cases hname : name ∈ names
  · rw [if_pos hname]
    exact ⟨.inl, fun h => h.elim id fun heq => heq ▸ hname⟩
  · rw [if_neg hname, List.mem_append, List.mem_singleton]

theorem withName_nodup {names : List Text} (h : names.Nodup) (name : Text) : (withName names name).Nodup := by
  unfold withName
  by_cases hname : name ∈ names
  · rwa [if_pos hname]
  · rw [if_neg hname]
    refine List.Nodup.append h (List.nodup_singleton _) fun other hold hnew => ?_
    exact hname (List.mem_singleton.mp hnew ▸ hold)

theorem idxOf_withName {names : List Text} {name other : Text} (h : other ∈ names) :
    (withName names name).idxOf other = names.idxOf other := by
  unfold withName
  by_cases hname : name ∈ names
  · rw [if_pos hname]
  · rw [if_neg hname, List.idxOf_append_of_mem h]

def number (names : List Text) (particle : Particle) : Int :=
  match particle.connection with
  | none => NO_CONNECTION
  | some name => names.idxOf name

theorem storeShort_nat {n : Nat} (h : n < 2 ^ 15) : storeShort n = some (n : Int) := by
  unfold storeShort
  rw [if_pos]
  omega

/-! ## 5. The fields of a row -/

def Sole (vars : List NetcdfVariable) (var : NetcdfVariable) : Prop :=
  ∀ other ∈ vars, other.name = var.name → other = var

/-- What the array holds once the row is written. -/
def writeCell (row : Nat) (data : Datum) (var : NetcdfVariable) (array : List Cell) : List Cell :=
  match var.stored data with
  | some (some cell) => array.set row cell
  | _ => array

theorem writeCell_twice (row : Nat) (data : Datum) (var : NetcdfVariable) (array : List Cell) :
    writeCell row data var (writeCell row data var array) = writeCell row data var array := by
  unfold writeCell
  cases var.stored data with
  | none => rfl
  | some stored =>
    cases stored with
    | none => rfl
    | some cell => exact List.set_set ..

theorem writeValues_absent {row : Nat} {data : Datum} {var : NetcdfVariable} (vars : List NetcdfVariable)
    (values : Dict Text (List Cell)) (h : var.stored data = some none) :
    writeValues row data (var :: vars) values = writeValues row data vars values := by
  rw [writeValues, h]

theorem writeValues_present {row : Nat} {data : Datum} {var : NetcdfVariable} {cell : Cell} {array : List Cell}
    (vars : List NetcdfVariable) {values : Dict Text (List Cell)} (h : var.stored data = some (some cell))
    (harray : values.get var.name = some array) : writeValues row data (var :: vars) values =
      writeValues row data vars (values.set var.name (array.set row cell)) := by
  rw [writeValues, h]
  dsimp only
  rw [harray, Option.bind_some]

theorem writeValues_spec (row : Nat) {data : Datum} : ∀ {vars : List NetcdfVariable},
    (∀ var ∈ vars, (var.stored data).isSome = true) → ∀ {values : Dict Text (List Cell)},
    (∀ var ∈ vars, (values.get var.name).isSome = true) →
      ∃ written, writeValues row data vars values = some written ∧
        (∀ name, (values.get name).isSome = true → (written.get name).isSome = true) ∧
        ∀ var, Sole vars var → ∀ array, values.get var.name = some array →
          written.get var.name = some (if var ∈ vars then writeCell row data var array else array)
  | [], _, values, _ => ⟨values, rfl, fun _ h => h, fun _ _ _ h => by rw [h, if_neg List.not_mem_nil]⟩
  | head :: vars, hfits, values, harrays => by
      obtain ⟨hhead, hrest⟩ := List.forall_mem_cons.mp hfits
      obtain ⟨hcolumn, hcolumns⟩ := List.forall_mem_cons.mp harrays
      obtain ⟨array, harray⟩ := Option.isSome_iff_exists.mp hcolumn
      -- The arrays with the first field in its own.
      obtain ⟨values', hvalues', hmore, hget⟩ : ∃ values', writeValues row data (head :: vars) values =
          writeValues row data vars values' ∧
          (∀ name, (values.get name).isSome = true → (values'.get name).isSome = true) ∧
          ∀ name, values'.get name =
            if head.name = name then some (writeCell row data head array) else values.get name := by
        obtain ⟨stored, hstored⟩ := Option.isSome_iff_exists.mp hhead
        unfold writeCell
        rw [hstored]
        cases stored with
        | none =>
          refine ⟨values, writeValues_absent vars values hstored, fun _ h => h, fun name => ?_⟩
          by_cases hname : head.name = name
          · rw [if_pos hname, ← hname, harray]
          · rw [if_neg hname]
        | some cell =>
          refine ⟨values.set head.name (array.set row cell), writeValues_present vars hstored harray,
            fun name h => ?_, fun name => Dict.get_set ..⟩
          rw [Dict.get_set]
          by_cases hname : head.name = name
          · rw [if_pos hname]
            rfl
          · rwa [if_neg hname]
      obtain ⟨written, hwritten, hkept, hcells⟩ :=
        writeValues_spec row hrest fun var hvar => hmore _ (hcolumns var hvar)
      refine ⟨written, hvalues'.trans hwritten, fun name h => hkept name (hmore name h),
        fun var hsole before hbefore => ?_⟩
      have hsole' : Sole vars var := fun other hother => hsole other (List.mem_cons_of_mem _ hother)
      by_cases hname : head.name = var.name
      · obtain rfl := hsole head List.mem_cons_self hname
        obtain rfl : array = before := Option.some.inj (harray.symm.trans hbefore)
        have hnow : values'.get head.name = some (writeCell row data head array) := by rw [hget, if_pos rfl]
        rw [hcells head hsole' _ hnow, if_pos List.mem_cons_self, writeCell_twice, ite_self]
      · have hnow : values'.get var.name = some before := by rw [hget, if_neg hname, hbefore]
        have hmem : var ∈ head :: vars ↔ var ∈ vars :=
          List.mem_cons.trans (or_iff_right fun h => hname (congrArg NetcdfVariable.name h).symm)
        rw [hcells var hsole' _ hnow]
        simp only [hmem]

/-! ## 6. The chunks hold the particles -/

def element (var : NetcdfVariable) (particle : Particle) : Cell :=
  match var.stored particle.data with
  | some (some cell) => cell
  | _ => var.fillCell

/-- Every column holds the particles so far. -/
structure Collected (vars : List NetcdfVariable) (rows : NetcdfRows) (names : List Text) (particles : List Particle) :
    Prop where
  vars_eq : rows.vars = vars
  positive : 0 < rows.chunkRows
  connections : rows.connections = names.zipIdx
  nodup : names.Nodup
  mem_names : ∀ name, name ∈ names ↔ ∃ particle ∈ particles, particle.connection = some name
  keys : Filled ⟨0, []⟩ rows.chunkRows (rows.chunks.map Chunk.keys) rows.row (particles.map Particle.key)
  connection : Filled NO_CONNECTION rows.chunkRows (rows.chunks.map Chunk.connection) rows.row
    (particles.map (number names))
  arrays : ∀ chunk ∈ rows.chunks, ∀ var ∈ vars, (chunk.values.get var.name).isSome = true
  values : ∀ var ∈ vars, Sole vars var →
    Filled var.fillCell rows.chunkRows (rows.chunks.map (Chunk.array var.name)) rows.row (particles.map (element var))

theorem collected_new (vars : List NetcdfVariable) : Collected vars (.new vars) [] [] where
  vars_eq := rfl
  positive := Nat.lt_of_lt_of_le Nat.zero_lt_one (Nat.le_max_left _ _)
  connections := rfl
  nodup := List.nodup_nil
  mem_names _ := ⟨fun h => absurd h List.not_mem_nil, fun ⟨_, h, _⟩ => absurd h List.not_mem_nil⟩
  keys := filled_nil
  connection := filled_nil
  arrays _ h := absurd h List.not_mem_nil
  values _ _ _ := filled_nil

section Rows

variable {vars : List NetcdfVariable} {rows : NetcdfRows} {names : List Text} {particles : List Particle}

theorem allocate_get (hvars : rows.vars = vars) {var : NetcdfVariable} (hvar : var ∈ vars) (hsole : Sole vars var) :
    rows.allocate.values.get var.name = some (List.replicate rows.chunkRows var.fillCell) := by
  refine Dict.get_ofList (fun other hother => ?_) ?_
  · obtain ⟨source, hsource, heq⟩ := List.mem_map.mp hother
    rw [hvars] at hsource
    have hname : source.name = var.name := congrArg Prod.fst heq
    obtain rfl := hsole source hsource hname
    exact (congrArg Prod.snd heq).symm
  · rw [List.map_map, hvars]
    exact List.mem_map_of_mem (f := Prod.fst ∘ _) hvar

theorem allocate_isSome (hvars : rows.vars = vars) {var : NetcdfVariable} (hvar : var ∈ vars) :
    (rows.allocate.values.get var.name).isSome = true := by
  have hname : var.name ∈ (rows.vars.map fun var =>
      (var.name, List.replicate rows.chunkRows var.fillCell)).map Prod.fst := by
    rw [List.map_map, hvars]
    exact List.mem_map_of_mem (f := Prod.fst ∘ _) hvar
  obtain ⟨array, hget, _⟩ := Dict.get_ofList_mem hname
  exact Option.isSome_iff_exists.mpr ⟨array, hget⟩

theorem Collected.reserve (h : Collected vars rows names particles) :
    Collected vars rows.reserve names particles ∧ rows.reserve.row < rows.reserve.chunkRows := by
  unfold NetcdfRows.reserve
  by_cases hfull : rows.row = rows.chunkRows
  · rw [if_pos hfull]
    have hkeys := h.keys
    have hconnection := h.connection
    rw [hfull] at hkeys hconnection
    refine ⟨⟨h.vars_eq, h.positive, h.connections, h.nodup, h.mem_names, ?_, ?_, ?_, ?_⟩, h.positive⟩
    · dsimp only
      rw [List.map_append]
      exact hkeys.allocate
    · dsimp only
      rw [List.map_append]
      exact hconnection.allocate
    · intro chunk hchunk var hvar
      obtain hold | hnew := List.mem_append.mp hchunk
      · exact h.arrays chunk hold var hvar
      · rw [List.mem_singleton.mp hnew]
        exact allocate_isSome h.vars_eq hvar
    · intro var hvar hsole
      have hvalues := h.values var hvar hsole
      have harray : rows.allocate.array var.name = List.replicate rows.chunkRows var.fillCell := by
        unfold Chunk.array
        rw [allocate_get h.vars_eq hvar hsole, Option.getD_some]
      rw [hfull] at hvalues
      dsimp only
      rw [List.map_append, List.map_singleton, harray]
      exact hvalues.allocate
  · rw [if_neg hfull]
    exact ⟨h, Nat.lt_of_le_of_ne h.keys.row_le hfull⟩

theorem filled_replace {α : Type} {fill value : α} {size row : Nat} {held : List α} {column : Chunk → List α}
    {earlier : List Chunk} {chunk chunk' : Chunk} (h : Filled fill size ((earlier ++ [chunk]).map column) row held)
    (hrow : row < size)
    (hwrite : column chunk' = (column chunk).set row value ∨ column chunk' = column chunk ∧ value = fill) :
    Filled fill size ((earlier ++ [chunk']).map column) (row + 1) (held ++ [value]) := by
  rw [List.map_append, List.map_singleton] at h
  rw [List.map_append, List.map_singleton]
  obtain hset | ⟨hsame, rfl⟩ := hwrite
  · have hwritten := h.write hrow value
    rw [List.modifyLast_concat] at hwritten
    rwa [hset]
  · rw [hsame]
    exact h.leave hrow

variable {particle : Particle}

theorem writeConnection_spec (row : Nat) (array : List Int) {names' : List Text}
    (hnames : names' = particle.connection.elim names (withName names)) (hbound : names'.length ≤ 2 ^ 15) :
    ∃ array', writeConnection row particle.connection names.zipIdx array = some (array', names'.zipIdx) ∧
      (array' = array.set row (number names' particle) ∨
        array' = array ∧ number names' particle = NO_CONNECTION) := by
  unfold writeConnection number
  cases hconnection : particle.connection with
  | none =>
    rw [hconnection] at hnames
    exact ⟨array, by rw [hnames]; rfl, .inr ⟨rfl, rfl⟩⟩
  | some name =>
    rw [hconnection] at hnames
    obtain rfl : names' = withName names name := hnames
    have hmem : name ∈ withName names name := mem_withName.mpr (.inr rfl)
    have hshort := storeShort_nat (Nat.lt_of_lt_of_le (List.idxOf_lt_length_of_mem hmem) hbound)
    refine ⟨array.set row ((withName names name).idxOf name : Int), ?_, .inl rfl⟩
    dsimp only
    rw [setDefault_zipIdx]
    dsimp only
    rw [hshort]
    rfl

theorem Collected.write (h : Collected vars rows names particles) (hrow : rows.row < rows.chunkRows)
    (hfits : ∀ var ∈ vars, (var.stored particle.data).isSome = true) {names' : List Text}
    (hnames : names' = particle.connection.elim names (withName names)) (hbound : names'.length ≤ 2 ^ 15) :
    ∃ rows', rows.write particle = some rows' ∧ Collected vars rows' names' (particles ++ [particle]) := by
  have hchunks : rows.chunks ≠ [] := by
    intro hnil
    have hkeys := h.keys
    rw [hnil] at hkeys
    obtain ⟨_, hfull, _⟩ | ⟨_, _, hempty, _⟩ := hkeys
    · exact absurd hfull (Nat.ne_of_lt hrow)
    · exact absurd hempty (by simp)
  obtain ⟨earlier, chunk, hchunks⟩ : ∃ earlier chunk, rows.chunks = earlier ++ [chunk] :=
    ⟨_, _, (List.dropLast_append_getLast hchunks).symm⟩
  obtain ⟨array, hconnection, harray⟩ := writeConnection_spec rows.row chunk.connection hnames hbound
  have harrays := h.arrays chunk (hchunks ▸ List.mem_append_right _ List.mem_cons_self)
  obtain ⟨values, hvalues, hkept, hcells⟩ := writeValues_spec rows.row hfits harrays
  have hnumbers : particles.map (number names) = particles.map (number names') := by
    refine List.map_congr_left fun other hother => ?_
    unfold number
    cases hname : other.connection with
    | none => rfl
    | some name =>
      have hmem : name ∈ names := (h.mem_names name).mpr ⟨other, hother, hname⟩
      rw [hnames]
      cases particle.connection with
      | none => rfl
      | some new => exact congrArg Int.ofNat (idxOf_withName hmem).symm
  refine ⟨{ rows with
    chunks := earlier ++ [⟨chunk.keys.set rows.row particle.key, array, values⟩]
    row := rows.row + 1
    connections := names'.zipIdx }, ?_, ?_⟩
  · unfold NetcdfRows.write
    rw [hchunks, List.getLast?_concat, Option.bind_some, h.connections, hconnection, Option.bind_some, h.vars_eq]
    dsimp only
    rw [hvalues, List.dropLast_concat]
    rfl
  · have hkeys := h.keys
    have hnumber := h.connection
    rw [hchunks] at hkeys hnumber
    rw [hnumbers] at hnumber
    refine ⟨h.vars_eq, h.positive, rfl, ?_, ?_, ?_, ?_, ?_, ?_⟩
    · rw [hnames]
      cases particle.connection with
      | none => exact h.nodup
      | some name => exact withName_nodup h.nodup name
    · intro name
      have hmore : name ∈ names' ↔ name ∈ names ∨ particle.connection = some name := by
        rw [hnames]
        cases particle.connection with
        | none => exact ⟨.inl, fun h => h.resolve_right (Option.some_ne_none name).symm⟩
        | some new =>
          rw [Option.some.injEq, eq_comm (a := new)]
          exact mem_withName
      rw [hmore, h.mem_names]
      simp only [List.mem_append, List.mem_singleton, or_and_right, exists_or, exists_eq_left]
    · rw [List.map_append (f := Particle.key), List.map_singleton]
      exact filled_replace hkeys hrow (.inl rfl)
    · rw [List.map_append (f := number names'), List.map_singleton]
      exact filled_replace hnumber hrow harray
    · intro other hother var hvar
      obtain hold | hnew := List.mem_append.mp hother
      · exact h.arrays other (hchunks ▸ List.mem_append_left _ hold) var hvar
      · rw [List.mem_singleton.mp hnew]
        exact hkept var.name (harrays var hvar)
    · intro var hvar hsole
      have hvalue := h.values var hvar hsole
      rw [hchunks] at hvalue
      rw [List.map_append (f := element var), List.map_singleton]
      obtain ⟨before, hbefore⟩ := Option.isSome_iff_exists.mp (harrays var hvar)
      have hafter := hcells var hsole before hbefore
      rw [if_pos hvar] at hafter
      refine filled_replace hvalue hrow ?_
      have harrayNew : Chunk.array var.name ⟨chunk.keys.set rows.row particle.key, array, values⟩ =
          writeCell rows.row particle.data var before := by
        unfold Chunk.array
        rw [hafter, Option.getD_some]
      have harrayOld : Chunk.array var.name chunk = before := by
        unfold Chunk.array
        rw [hbefore, Option.getD_some]
      rw [harrayNew, harrayOld]
      unfold writeCell element
      obtain ⟨stored, hstored⟩ := Option.isSome_iff_exists.mp (hfits var hvar)
      rw [hstored]
      cases stored with
      | none => exact .inr ⟨rfl, rfl⟩
      | some cell => exact .inl rfl

def connectionNames (particles : List Particle) : Finset Text := (particles.filterMap Particle.connection).toFinset

theorem mem_connectionNames {name : Text} :
    name ∈ connectionNames particles ↔ ∃ particle ∈ particles, particle.connection = some name := by
  unfold connectionNames
  rw [List.mem_toFinset, List.mem_filterMap]

theorem names_length_le {names' : List Text} (hnodup : names'.Nodup) {bound : Nat}
    (hmem : ∀ name ∈ names', name ∈ connectionNames particles) (hbound : (connectionNames particles).card ≤ bound) :
    names'.length ≤ bound := by
  rw [← List.toFinset_card_of_nodup hnodup]
  exact (Finset.card_le_card fun name hname => hmem name (List.mem_toFinset.mp hname)).trans hbound

theorem collected_all : ∀ (rest : List Particle) {rows : NetcdfRows} {names : List Text} {particles : List Particle},
    Collected vars rows names particles →
    (∀ particle ∈ rest, ∀ var ∈ vars, (var.stored particle.data).isSome = true) →
    (connectionNames (particles ++ rest)).card ≤ 2 ^ 15 →
      ∃ rows' names', rest.foldlM NetcdfRows.add rows = some rows' ∧ Collected vars rows' names' (particles ++ rest)
  | [], rows, names, particles, h, _, _ => ⟨rows, names, rfl, by rwa [List.append_nil]⟩
  | particle :: rest, rows, names, particles, h, hfits, hbound => by
      obtain ⟨hfit, hfits⟩ := List.forall_mem_cons.mp hfits
      obtain ⟨hreserved, hrow⟩ := h.reserve
      have hlength : (particle.connection.elim names (withName names)).length ≤ 2 ^ 15 := by
        refine names_length_le ?_ (fun name hname => mem_connectionNames.mpr ?_) hbound
        · cases particle.connection with
          | none => exact h.nodup
          | some name => exact withName_nodup h.nodup name
        · have hcases : name ∈ names ∨ particle.connection = some name := by
            cases hconnection : particle.connection with
            | none =>
              rw [hconnection] at hname
              exact .inl hname
            | some new =>
              rw [hconnection] at hname
              exact (mem_withName.mp hname).imp_right fun heq => congrArg some heq.symm
          obtain hold | hnew := hcases
          · obtain ⟨other, hother, heq⟩ := (h.mem_names name).mp hold
            exact ⟨other, List.mem_append_left _ hother, heq⟩
          · exact ⟨particle, List.mem_append_right _ List.mem_cons_self, hnew⟩
      obtain ⟨next, hadd, hnext⟩ := hreserved.write hrow hfit rfl hlength
      rw [← List.singleton_append, ← List.append_assoc] at hbound
      obtain ⟨rows', names', hrun, hcollected⟩ := collected_all rest hnext hfits hbound
      refine ⟨rows', names', ?_, ?_⟩
      · have hadded : NetcdfRows.add rows particle = some next := hadd
        rw [List.foldlM_cons, hadded]
        exact hrun
      · rwa [List.append_assoc, List.singleton_append] at hcollected

/-! ## 7. The table holds the particles -/

theorem sortedNames_perm (names : List Text) : (sortedNames names).Perm names := List.mergeSort_perm _ _

theorem sortedNames_pairwise {names : List Text} (h : names.Nodup) : (sortedNames names).Pairwise (· < ·) := by
  have hordered : (sortedNames names).Pairwise (· ≤ ·) := by
    have hsorted := @List.pairwise_mergeSort _ (fun a b : Text => decide (a ≤ b))
      (fun a b c hab hbc => by simpa using le_trans (by simpa using hab) (by simpa using hbc))
      (fun a b => by simpa using le_total a b) names
    simpa [sortedNames] using hsorted
  have hdistinct : (sortedNames names).Nodup := (sortedNames_perm names).nodup_iff.mpr h
  exact hordered.imp₂ (fun _ _ hle hne => lt_of_le_of_ne hle hne) hdistinct

theorem index_get {sorted : List Text} (h : sorted.Nodup) {name : Text} (hname : name ∈ sorted) :
    (Dict.ofList sorted.zipIdx).get name = some (sorted.idxOf name) := by
  refine Dict.get_ofList (fun position hposition => ?_) ?_
  · obtain ⟨hlt, heq⟩ := List.getElem?_eq_some_iff.mp (List.mk_mem_zipIdx_iff_getElem?.mp hposition)
    rw [← heq, h.idxOf_getElem]
  · rwa [List.zipIdx_map_fst]

/-- The number of a name finds its position; that of no connection finds itself, at the end. -/
theorem indexed_number {names : List Text} (sorted : List Text)
    (hnames : ∀ name, particle.connection = some name → name ∈ names) :
    indexed ((names.map fun name => (sorted.idxOf name : Int)) ++ [NO_CONNECTION]) (number names particle) =
      some (number sorted particle) := by
  unfold number indexed
  cases hconnection : particle.connection with
  | none =>
    dsimp only
    have hlast : ((((names.map fun name => (sorted.idxOf name : Int)) ++ [NO_CONNECTION]).length : Nat) : Int) +
        NO_CONNECTION = (names.length : Int) := by
      rw [List.length_append, List.length_map, List.length_singleton]
      unfold NO_CONNECTION
      omega
    rw [if_pos (by decide), hlast, Int.toNat_natCast, List.getElem?_append_right (Nat.le_of_eq (List.length_map _)),
      List.length_map, Nat.sub_self]
    rfl
  | some name =>
    have hmem := hnames name hconnection
    have hlt : names.idxOf name < names.length := List.idxOf_lt_length_of_mem hmem
    have hpositive : ¬ ((names.idxOf name : Nat) : Int) < 0 := not_lt.mpr (Int.natCast_nonneg _)
    dsimp only
    rw [if_neg hpositive, Int.toNat_natCast, List.getElem?_append_left (by rwa [List.length_map]), List.getElem?_map,
      List.getElem?_idxOf hmem]
    rfl

theorem reindex_spec {names sorted : List Text} (hperm : sorted.Perm names) (hnodup : names.Nodup)
    (hlength : names.length ≤ 2 ^ 15)
    (hnames : ∀ particle ∈ particles, ∀ name, particle.connection = some name → name ∈ names) :
    reindex (particles.map (number names)) names (Dict.ofList sorted.zipIdx) =
      some (particles.map (number sorted)) := by
  have hsorted : sorted.Nodup := hperm.nodup_iff.mpr hnodup
  have hpositions : (names.mapM fun name =>
      ((Dict.ofList sorted.zipIdx).get name).bind fun position => storeShort position) =
        some (names.map fun name => (sorted.idxOf name : Int)) := by
    refine mapM_eq_some fun name hname => ?_
    have hmem : name ∈ sorted := hperm.mem_iff.mpr hname
    rw [index_get hsorted hmem, Option.bind_some]
    exact storeShort_nat (Nat.lt_of_lt_of_le (List.idxOf_lt_length_of_mem hmem) (hperm.length_eq.le.trans hlength))
  unfold reindex
  rw [hpositions, Option.bind_some, List.mapM_map]
  exact mapM_eq_some fun particle hparticle => indexed_number sorted (hnames particle hparticle)

theorem array_head (name : Text) (row : Nat) (chunk : Chunk) :
    (head chunk row).array name = (chunk.array name).take row := by
  have hget : ∀ values : Dict Text (List Cell),
      Dict.get (values.map fun entry => (entry.1, entry.2.take row)) name =
        (values.get name).map (List.take row) := by
    intro values
    induction values with
    | nil => rfl
    | cons entry values ih =>
      rw [List.map_cons, Dict.get_cons, Dict.get_cons, ih]
      by_cases hname : entry.1 = name
      · rw [if_pos hname, if_pos hname]
        rfl
      · rw [if_neg hname, if_neg hname]
  unfold head Chunk.array
  dsimp only
  rw [hget]
  cases chunk.values.get name with
  | none => exact List.take_nil.symm
  | some array => rfl

theorem flatten_head {α : Type} {fill : α} {size : Nat} {column : Chunk → List α} {held : List α}
    (h : Filled fill size (rows.chunks.map column) rows.row held)
    (hcut : ∀ chunk, column (head chunk rows.row) = (column chunk).take rows.row) :
    ((rows.chunks.modifyLast (head · rows.row)).map column).flatten = held := by
  have hmap : (rows.chunks.modifyLast (head · rows.row)).map column =
      (rows.chunks.map column).modifyLast (List.take rows.row) := map_modifyLast hcut rows.chunks
  rw [hmap]
  exact h.flatten_take

theorem Collected.finish (h : Collected vars rows names particles) (hlength : names.length ≤ 2 ^ 15) :
    ∃ table, rows.finish = some table ∧ table.keys = particles.map Particle.key ∧
      table.connection = particles.map (number (sortedNames names)) ∧ table.connections = sortedNames names ∧
      ∀ var ∈ vars, Sole vars var → table.values.get var.name = some (particles.map (element var)) := by
  have hkeys : ((rows.chunks.modifyLast (head · rows.row)).map Chunk.keys).flatten = particles.map Particle.key :=
    flatten_head h.keys fun _ => rfl
  have hconnection : ((rows.chunks.modifyLast (head · rows.row)).map Chunk.connection).flatten =
      particles.map (number names) := flatten_head h.connection fun _ => rfl
  have hkeyNames : rows.connections.keys = names := by
    rw [h.connections]
    exact List.zipIdx_map_fst 0 names
  have hnames : ∀ particle ∈ particles, ∀ name, particle.connection = some name → name ∈ names :=
    fun particle hparticle name hname => (h.mem_names name).mpr ⟨particle, hparticle, hname⟩
  have hreindex := reindex_spec (sortedNames_perm names) h.nodup hlength hnames
  refine ⟨{
    keys := particles.map Particle.key
    connection := particles.map (number (sortedNames names))
    connections := sortedNames names
    values := .ofList (vars.map fun var =>
      (var.name, ((rows.chunks.modifyLast (head · rows.row)).map (Chunk.array var.name)).flatten)) },
    ?_, rfl, rfl, rfl, fun var hvar hsole => ?_⟩
  · unfold NetcdfRows.finish
    dsimp only
    rw [hkeyNames, hconnection, hreindex, Option.map_some, hkeys, h.vars_eq]
  · refine Dict.get_ofList (fun other hother => ?_) ?_
    · obtain ⟨source, hsource, heq⟩ := List.mem_map.mp hother
      obtain rfl := hsole source hsource (congrArg Prod.fst heq)
      exact (congrArg Prod.snd heq).symm.trans
        (flatten_head (h.values source hsource hsole) (array_head source.name rows.row))
    · rw [List.map_map]
      exact List.mem_map_of_mem (f := Prod.fst ∘ _) hvar

theorem key_text (particle : Particle) : particle.key = ⟨encodeTime particle.timestamp, uuidText particle.id⟩ := by
  have hlength : (uuidText particle.id).length = ID_LENGTH := by simp [uuidText, Ceres.Database.uuidDigits, ID_LENGTH]
  unfold Particle.key
  rw [← hlength, List.take_length]

/-- What a row holds of a field, and when that is the fill. -/
theorem element_cases {var : NetcdfVariable} (h : (var.stored particle.data).isSome = true) :
    (∀ cell, var.stored particle.data = some (some cell) → element var particle = cell) ∧
      (element var particle = var.fillCell ↔
        var.stored particle.data = some none ∨ var.stored particle.data = some (some var.fillCell)) := by
  obtain ⟨stored, hstored⟩ := Option.isSome_iff_exists.mp h
  unfold element
  rw [hstored]
  cases stored with
  | none => exact ⟨fun cell hcell => absurd (Option.some.inj hcell) (Option.some_ne_none cell).symm, by simp⟩
  | some cell =>
    refine ⟨fun other hother => Option.some.inj (Option.some.inj hother), ?_⟩
    dsimp only
    exact ⟨fun heq => .inr (by rw [heq]), fun heq => heq.elim (fun hnone => absurd hnone (by simp))
      fun hsome => Option.some.inj (Option.some.inj hsome)⟩

theorem tableOf_spec (hnames : (connectionNames particles).card ≤ 2 ^ 15)
    (hfits : ∀ particle ∈ particles, ∀ var ∈ vars, (var.stored particle.data).isSome = true) :
    ∃ table names, tableOf vars particles = some table ∧ names.Nodup ∧
      (∀ name, name ∈ names ↔ name ∈ connectionNames particles) ∧ table.keys = particles.map Particle.key ∧
      table.connection = particles.map (number (sortedNames names)) ∧ table.connections = sortedNames names ∧
      ∀ var ∈ vars, Sole vars var → table.values.get var.name = some (particles.map (element var)) := by
  obtain ⟨rows, names, hrun, hcollected⟩ := collected_all particles (collected_new vars) hfits hnames
  rw [List.nil_append] at hcollected
  have hmem : ∀ name, name ∈ names ↔ name ∈ connectionNames particles := fun name =>
    (hcollected.mem_names name).trans mem_connectionNames.symm
  have hlength : names.length ≤ 2 ^ 15 :=
    names_length_le hcollected.nodup (fun name => (hmem name).mp) hnames
  obtain ⟨table, hfinish, htable⟩ := hcollected.finish hlength
  refine ⟨table, names, ?_, hcollected.nodup, hmem, htable⟩
  unfold tableOf
  rw [hrun]
  exact hfinish

end Rows

/-- **The table holds the particles.** An element is the fill where the field is absent, and where what the field
    stores is the fill. -/
theorem finish_holds_particles (vars : List NetcdfVariable) (particles : List Particle)
    (hnames : (connectionNames particles).card ≤ 32767)
    (hfits : ∀ particle ∈ particles, ∀ var ∈ vars, (var.stored particle.data).isSome = true) :
    ∃ table : NetcdfTable, tableOf vars particles = some table ∧
      table.keys = particles.map (fun particle : Particle => ⟨encodeTime particle.timestamp, uuidText particle.id⟩) ∧
      table.connections.Pairwise (· < ·) ∧ (∀ name, name ∈ table.connections ↔ name ∈ connectionNames particles) ∧
      table.connection.length = particles.length ∧
      (∀ (i : Nat) (particle : Particle), particles[i]? = some particle →
        (table.connection[i]? = some NO_CONNECTION ↔ particle.connection = none) ∧
        ∀ name, particle.connection = some name →
          ∃ position : Nat, table.connection[i]? = some (position : Int) ∧ table.connections[position]? = some name) ∧
      ∀ var ∈ vars, Sole vars var →
        ∃ column : List Cell, table.values.get var.name = some column ∧ column.length = particles.length ∧
          ∀ (i : Nat) (particle : Particle), particles[i]? = some particle →
            (∀ cell, var.stored particle.data = some (some cell) → column[i]? = some cell) ∧
            (column[i]? = some var.fillCell ↔
              var.stored particle.data = some none ∨ var.stored particle.data = some (some var.fillCell)) := by
  obtain ⟨table, names, htable, hnodup, hmem, hkeys, hconnection, hconnections, hvalues⟩ :=
    tableOf_spec (hnames.trans (by decide)) hfits
  refine ⟨table, htable, ?_, ?_, fun name => ?_, ?_, fun i particle hparticle => ?_, fun var hvar hsole => ?_⟩
  · rw [hkeys]
    exact List.map_congr_left fun particle _ => key_text particle
  · rw [hconnections]
    exact sortedNames_pairwise hnodup
  · rw [hconnections, (sortedNames_perm names).mem_iff, hmem]
  · rw [hconnection, List.length_map]
  · have hat : table.connection[i]? = some (number (sortedNames names) particle) := by
      rw [hconnection, List.getElem?_map, hparticle]
      rfl
    rw [hat]
    unfold number
    cases hname : particle.connection with
    | none => exact ⟨⟨fun _ => rfl, fun _ => rfl⟩, fun name h => absurd h (Option.some_ne_none name).symm⟩
    | some name =>
      have hsorted : name ∈ sortedNames names := (sortedNames_perm names).mem_iff.mpr
        ((hmem name).mpr (mem_connectionNames.mpr ⟨particle, List.mem_of_getElem? hparticle, hname⟩))
      refine ⟨⟨fun h => ?_, fun h => absurd h (Option.some_ne_none name)⟩, fun other hother => ?_⟩
      · have hnegative : (((sortedNames names).idxOf name : Nat) : Int) = -1 := Option.some.inj h
        omega
      · obtain rfl := Option.some.inj hother
        refine ⟨_, rfl, ?_⟩
        rw [hconnections]
        exact List.getElem?_idxOf hsorted
  · refine ⟨_, hvalues var hvar hsole, List.length_map _, fun i particle hparticle => ?_⟩
    have hat : (particles.map (element var))[i]? = some (element var particle) := by
      rw [List.getElem?_map, hparticle]
      rfl
    obtain ⟨hpresent, hfill⟩ := element_cases (hfits particle (List.mem_of_getElem? hparticle) var hvar)
    rw [hat]
    exact ⟨fun cell hcell => congrArg some (hpresent cell hcell), Option.some_inj.trans hfill⟩

theorem fill_storable (dtype : DType) : ∃ value, value ≠ .none ∧ storeElement dtype value = some (fillOf dtype) := by
  cases dtype with
  | f4 => exact ⟨.float FILL_FLOAT, by simp, by decide +kernel⟩
  | f8 => exact ⟨.float FILL_FLOAT, by simp, rfl⟩
  | str => exact ⟨.text [], by simp, rfl⟩
  | i1 => exact ⟨.int (-127), by simp, rfl⟩
  | u1 => exact ⟨.int 255, by simp, rfl⟩
  | i2 => exact ⟨.int (-32767), by simp, rfl⟩
  | u2 => exact ⟨.int 65535, by simp, rfl⟩
  | i4 => exact ⟨.int (-2147483647), by simp, rfl⟩
  | u4 => exact ⟨.int 4294967295, by simp, rfl⟩
  | i8 => exact ⟨.int (-9223372036854775806), by simp, rfl⟩
  | u8 => exact ⟨.int 18446744073709551614, by simp, rfl⟩

namespace Sample

/-- A byte. -/
def status : NetcdfVariable := ⟨"status".toList, .u1, ["status".toList], [], false⟩

/-- A pair of integers. -/
def pair : NetcdfVariable := ⟨"pair".toList, .i2, ["pair".toList], [2], false⟩

def first : Particle where
  timestamp := ⟨5, none⟩
  id := 1
  connection := some "b".toList
  data := .object [("status".toList, .int 255), ("pair".toList, .sequence [.int 1, .int 2])]

def second : Particle where
  timestamp := ⟨7, none⟩
  id := 2
  connection := some "a".toList
  data := .object [("status".toList, .int 3), ("pair".toList, .none)]

theorem names_card : (connectionNames [first, second]).card ≤ 32767 := by decide

theorem sample_fits :
    ∀ particle ∈ [first, second], ∀ var ∈ [status, pair], (var.stored particle.data).isSome = true := by
  intro particle hparticle var hvar
  simp only [List.mem_cons, List.not_mem_nil, or_false] at hparticle hvar
  obtain rfl | rfl := hparticle <;> obtain rfl | rfl := hvar <;> decide

theorem status_sole : Sole [status, pair] status := by
  intro other hother hname
  obtain rfl | hother := List.mem_cons.mp hother
  · rfl
  · rw [List.mem_singleton.mp hother] at hname
    exact absurd hname (by decide)

/-- The second row's status is the particle's, and the two connections are in order. -/
theorem second_row :
    ∃ table column, tableOf [status, pair] [first, second] = some table ∧ table.connections.Pairwise (· < ·) ∧
      table.values.get "status".toList = some column ∧ column[1]? = some (.element (.int 3)) := by
  obtain ⟨table, htable, _, hsorted, _, _, _, hvalues⟩ :=
    finish_holds_particles [status, pair] [first, second] names_card sample_fits
  obtain ⟨column, hcolumn, _, hrows⟩ := hvalues status List.mem_cons_self status_sole
  exact ⟨table, column, htable, hsorted, hcolumn, (hrows 1 second rfl).1 (.element (.int 3)) rfl⟩

/-- The first particle's status is there, and its element is the fill. -/
theorem fill_present :
    ∃ table column, tableOf [status, pair] [first, second] = some table ∧
      table.values.get "status".toList = some column ∧ column[0]? = some status.fillCell ∧
      status.stored first.data = some (some (.element (.int 255))) := by
  obtain ⟨table, names, htable, _, _, _, _, _, hvalues⟩ := tableOf_spec (names_card.trans (by decide)) sample_fits
  exact ⟨table, _, htable, hvalues status List.mem_cons_self status_sole, rfl, rfl⟩

end Sample

end Ceres.Exporter.Netcdf
