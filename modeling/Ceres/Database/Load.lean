/-
  File:      Ceres/Database/Load.lean
  Subject:   BULK LOADS (`rust/ceres-database/src/load.rs`, `store.rs`, `backend.rs`).

  A load reads a file of records, a batch at a time, and writes the batches in one transaction.

  * `lines`, `Rows` -- the input's rows; a line that is not UTF-8 reads as the end of the input;
  * `Batches.next`, `Batches.items` -- the reader's batches, up to the first that is refused;
  * `insertAll`, `loadRecords` -- the transaction;
  * `Item`, `reachedFrom` -- what the input holds, and what of it the reader reaches; `items_spec` -- the
    batches in these terms;
  * **`landsWhole_iff`** -- a load lands whole or not at all exactly when every line can be read, or one
    of the lines that are reached is refused.
-/
import Ceres.Data.Json
import Ceres.Database.Tables

namespace Ceres.Database

open Ceres.Library
open Ceres.Data

/-! ## 1. Rows -/

/-- The input shapes a load reads. -/
inductive LoadFormat where
  | json
  | csv
  deriving DecidableEq, Repr

/-- The readers of other packages: `serde_json::from_str`, and the `csv` crate's header and records, a
    record absent where it cannot be read. -/
structure Readers where
  json : Text → Option Json
  csv : List UInt8 → Option (List Text × List (Option (List Text)))

/-- A line behind its newline loses a carriage return too. -/
def stripReturn (line : List UInt8) : List UInt8 :=
  if line.getLast? = some 13 then line.dropLast else line

/-- The lines of a stream, `held` being the start of the current one. -/
def linesFrom (held : List UInt8) : List UInt8 → List (List UInt8)
  | [] => if held = [] then [] else [held]
  | byte :: source =>
    if byte = 10 then stripReturn held :: linesFrom [] source else linesFrom (held ++ [byte]) source

def decodeUtf8 (bytes : List UInt8) : Option Text :=
  (String.fromUTF8? ⟨bytes.toArray⟩).map String.toList

/-- `BufRead::lines`, an error item for a line that is not UTF-8. -/
def lines (source : List UInt8) : List (Option Text) := (linesFrom [] source).map decodeUtf8

/-- One input's rows, read lazily in whichever shape the format names. -/
inductive Rows where
  | json (lines : List (Option Text))
  | csv (records : List (Option (List Text))) (headers : List Text)

section Reading

variable (readers : Readers)

def Rows.start (source : List UInt8) : LoadFormat → Option Rows
  | .json => some (.json (lines source))
  | .csv => (readers.csv source).map fun (headers, records) => .csv records headers

def jsonObject (line : Text) : Option Object :=
  match readers.json line with
  | some (.object object) => some object
  | _ => none

/-- Read one row of cells against the header that names them. -/
def csvObject (row headers : List Text) : Option Object :=
  if row.length > headers.length then none
  else some (headers.zipIdx.foldl (fun object (name, index) =>
    object.insert (String.ofList name) (row[index]?.elim .null .string)) [])

/-- The next row's wire object, `none` at the end of the input and `some none` for a row the reader
    cannot represent. -/
def Rows.next : Rows → Option (Option Object) × Rows
  | .json [] => (none, .json [])
  -- `line.ok()?` leaves the function with `none`, as the end of the input does
  | .json (none :: lines) => (none, .json lines)
  | .json (some line :: lines) => (some (jsonObject readers line), .json lines)
  | .csv [] headers => (none, .csv [] headers)
  | .csv (row :: records) headers =>
    (some (row.bind fun row => csvObject row headers), .csv records headers)

/-! ## 2. Batches -/

/-- How many rows one insert carries. -/
def BATCH : Nat := 1000

/-- What to say about a row that could not be read. -/
def refused (row : Nat) (reason : Text) : Text :=
  "Row ".toList ++ (toString row).toList ++ " could not be read. ".toList ++ reason ++
    " Nothing was loaded, because a load either lands whole or not at all.".toList

/-- The state of a walk over an input's rows. -/
structure Batches where
  rows : Rows
  spent : Bool := false
  read : Nat := 0

/-- The loop that fills a batch up to its capacity; an error holds how many rows came before. -/
def fill : Nat → Rows → List Object → Except Nat (List Object) × Rows
  | 0, rows, objects => (.ok objects, rows)
  | capacity + 1, rows, objects =>
    match rows.next readers with
    | (none, rows) => (.ok objects, rows)
    | (some none, rows) => (.error objects.length, rows)
    | (some (some object), rows) => fill capacity rows (objects ++ [object])

variable {R : Type} (convert : Nat → List Object → Except Text (List R))

/-- The row of a refused batch that is refused by itself; `start` when none is. -/
def offending (start : Nat) (objects : List Object) : Nat :=
  match objects.zipIdx.find? fun (object, index) =>
      (convert (start + index) [object]).toOption.isNone with
  | none => start + 1
  | some (_, index) => start + index + 1

/-- The next batch. A conversion is given the number of its first row, which the values generated for
    absent columns depend on. -/
def Batches.next (batches : Batches) : Option (Except Text (List R)) × Batches :=
  if batches.spent then (none, batches)
  else
    match fill readers BATCH batches.rows [] with
    | (.error count, rows) =>
      (some (.error (refused (batches.read + count + 1)
        "The row does not parse as the format claims.".toList)),
        { batches with rows, spent := true })
    | (.ok [], rows) => (none, { batches with rows })
    | (.ok objects, rows) =>
      match convert batches.read objects with
      | .ok batch => (some (.ok batch), { batches with rows, read := batches.read + objects.length })
      | .error reason =>
        (some (.error (refused (offending convert batches.read objects) reason)),
          { rows, spent := true, read := batches.read + objects.length })

/-! ## 3. What the input holds and what of it is reached -/

/-- One record of the input: a line that cannot be read, one whose object cannot be had, or an
    object. -/
inductive Item where
  | unreadable
  | malformed
  | object (object : Object)

def Item.ofObject : Option Object → Item
  | none => .malformed
  | some held => .object held

/-- The records still ahead. -/
def Rows.items : Rows → List Item
  | .json lines => lines.map fun
    | none => .unreadable
    | some line => .ofObject (jsonObject readers line)
  | .csv records headers => records.map fun row =>
      .ofObject (row.bind fun row => csvObject row headers)

/-- What of the records the walk reaches, `held` of them being in the current batch. An unreadable line
    ends the batch, and where the batch is empty it ends the walk. -/
def reachedFrom : Nat → List Item → List Item
  | _, [] => []
  | held, .object row :: items =>
    .object row :: reachedFrom (if held + 1 = BATCH then 0 else held + 1) items
  | _, .malformed :: _ => [.malformed]
  | 0, .unreadable :: _ => []
  | _ + 1, .unreadable :: items => reachedFrom 0 items

theorem Rows.next_cases (rows : Rows) : ∃ rows' : Rows,
    (rows.items readers = [] ∧ rows'.items readers = [] ∧ rows.next readers = (none, rows')) ∨
      (rows.items readers = .unreadable :: rows'.items readers ∧ rows.next readers = (none, rows')) ∨
      (rows.items readers = .malformed :: rows'.items readers ∧ rows.next readers = (some none, rows')) ∨
      ∃ object, rows.items readers = .object object :: rows'.items readers ∧
        rows.next readers = (some (some object), rows') := by
  match rows with
  | .json [] => exact ⟨.json [], .inl ⟨rfl, rfl, rfl⟩⟩
  | .json (none :: lines) => exact ⟨.json lines, .inr (.inl ⟨rfl, rfl⟩)⟩
  | .json (some line :: lines) =>
    refine ⟨.json lines, .inr (.inr ?_)⟩
    cases h : jsonObject readers line with
    | none => exact .inl ⟨by simp [Rows.items, h, Item.ofObject], by simp [Rows.next, h]⟩
    | some object =>
      exact .inr ⟨object, by simp [Rows.items, h, Item.ofObject], by simp [Rows.next, h]⟩
  | .csv [] headers => exact ⟨.csv [] headers, .inl ⟨rfl, rfl, rfl⟩⟩
  | .csv (row :: records) headers =>
    refine ⟨.csv records headers, .inr (.inr ?_)⟩
    cases h : row.bind fun row => csvObject row headers with
    | none => exact .inl ⟨by simp [Rows.items, h, Item.ofObject], by simp [Rows.next, h]⟩
    | some object =>
      exact .inr ⟨object, by simp [Rows.items, h, Item.ofObject], by simp [Rows.next, h]⟩

/-- Where the count of a batch stands when one more row is in it. -/
theorem succ_mod_batch {held : Nat} (h : held < BATCH) :
    (held + 1) % BATCH = if held + 1 = BATCH then 0 else held + 1 := by
  split
  · rename_i heq
    rw [heq, Nat.mod_self]
  · exact Nat.mod_eq_of_lt (by omega)

theorem fill_ok : ∀ (capacity : Nat) {rows rows' : Rows} {objects filled : List Object},
    capacity + objects.length = BATCH → fill readers capacity rows objects = (.ok filled, rows') →
    ∃ taken, filled = objects ++ taken ∧
      (filled ≠ [] → reachedFrom (objects.length % BATCH) (rows.items readers) =
        taken.map .object ++ reachedFrom 0 (rows'.items readers)) ∧
      (filled = [] → reachedFrom 0 (rows.items readers) = []) ∧
      (rows'.items readers).length + taken.length ≤ (rows.items readers).length
  | 0, rows, rows', objects, filled, h, hfill => by
      obtain ⟨rfl, rfl⟩ : objects = filled ∧ rows = rows' := by simpa [fill] using hfill
      have hlength : objects.length = BATCH := by omega
      refine ⟨[], by simp, fun _ => by simp [hlength], fun hnil => ?_, by simp⟩
      simp [hnil, BATCH] at hlength
  | capacity + 1, rows, rows', objects, filled, h, hfill => by
      have hlt : objects.length < BATCH := by omega
      obtain ⟨ahead, ⟨hitems, hrest, hnext⟩ | ⟨hitems, hnext⟩ | ⟨hitems, hnext⟩ |
        ⟨object, hitems, hnext⟩⟩ := rows.next_cases readers
      · obtain ⟨rfl, rfl⟩ : objects = filled ∧ ahead = rows' := by simpa [fill, hnext] using hfill
        exact ⟨[], by simp, fun _ => by simp [hitems, hrest, reachedFrom],
          fun _ => by simp [hitems, reachedFrom], by simp [hitems, hrest]⟩
      · obtain ⟨rfl, rfl⟩ : objects = filled ∧ ahead = rows' := by simpa [fill, hnext] using hfill
        refine ⟨[], by simp, fun hne => ?_, fun hnil => by simp [hitems, reachedFrom],
          by simp [hitems]⟩
        obtain ⟨held, hheld⟩ := Nat.exists_eq_add_one_of_ne_zero
          (List.length_pos_iff.mpr hne).ne'
        rw [Nat.mod_eq_of_lt hlt, hheld, hitems]
        rfl
      · simp [fill, hnext] at hfill
      · have hfill' : fill readers capacity ahead (objects ++ [object]) = (.ok filled, rows') := by
          simpa [fill, hnext] using hfill
        obtain ⟨taken, rfl, hne, -, hle⟩ := fill_ok capacity (by simp; omega) hfill'
        refine ⟨object :: taken, by simp, fun _ => ?_, fun hnil => by simp at hnil, ?_⟩
        · rw [hitems, Nat.mod_eq_of_lt hlt, reachedFrom, ← succ_mod_batch hlt]
          have := hne (by simp)
          rw [List.length_append, List.length_singleton] at this
          rw [this]
          rfl
        · rw [hitems]
          simp only [List.length_cons]
          omega

theorem fill_error : ∀ (capacity : Nat) {rows rows' : Rows} {objects : List Object} {count : Nat},
    capacity + objects.length = BATCH → fill readers capacity rows objects = (.error count, rows') →
    ∃ taken : List Object, count = objects.length + taken.length ∧
      reachedFrom (objects.length % BATCH) (rows.items readers) = taken.map .object ++ [.malformed]
  | 0, rows, rows', objects, count, h, hfill => by simp [fill] at hfill
  | capacity + 1, rows, rows', objects, count, h, hfill => by
      have hlt : objects.length < BATCH := by omega
      obtain ⟨ahead, ⟨hitems, hrest, hnext⟩ | ⟨hitems, hnext⟩ | ⟨hitems, hnext⟩ |
        ⟨object, hitems, hnext⟩⟩ := rows.next_cases readers
      · simp [fill, hnext] at hfill
      · simp [fill, hnext] at hfill
      · obtain ⟨rfl, rfl⟩ : objects.length = count ∧ ahead = rows' := by
          simpa [fill, hnext] using hfill
        exact ⟨[], by simp, by simp [hitems, reachedFrom]⟩
      · have hfill' : fill readers capacity ahead (objects ++ [object]) = (.error count, rows') := by
          simpa [fill, hnext] using hfill
        obtain ⟨taken, rfl, heq⟩ := fill_error capacity (by simp; omega) hfill'
        refine ⟨object :: taken, by simp; omega, ?_⟩
        rw [hitems, Nat.mod_eq_of_lt hlt, reachedFrom, ← succ_mod_batch hlt]
        rw [List.length_append, List.length_singleton] at heq
        rw [heq]
        rfl

/-- What is left for the walk to do. -/
def Batches.left (batches : Batches) : Nat :=
  if batches.spent then 0 else (batches.rows.items readers).length + 1

/-- A batch that is delivered leaves less to do. -/
theorem Batches.next_left {batches batches' : Batches} {item : Except Text (List R)}
    (h : batches.next readers convert = (some item, batches')) :
    batches'.left readers < batches.left readers := by
  unfold Batches.next at h
  split at h
  · cases h
  · rename_i hspent
    split at h
    · obtain ⟨-, rfl⟩ := Prod.mk.inj h
      simp [Batches.left, hspent]
    · cases h
    · rename_i objects rows hne hfill
      obtain ⟨taken, htaken, -, -, hle⟩ := fill_ok readers BATCH (by simp) hfill
      rw [List.nil_append] at htaken
      have hpos : 0 < taken.length := List.length_pos_iff.mpr fun hnil => hne (htaken.trans hnil)
      split at h
      · obtain ⟨-, rfl⟩ := Prod.mk.inj h
        simp only [Batches.left, hspent]
        simp only [Bool.false_eq_true, if_false]
        omega
      · obtain ⟨-, rfl⟩ := Prod.mk.inj h
        simp [Batches.left, hspent]

/-- All the batches the walk delivers, a refusal being the last. -/
def Batches.items (batches : Batches) : List (Except Text (List R)) :=
  match _h : batches.next readers convert with
  | (none, _) => []
  | (some item, batches') => item :: batches'.items
termination_by batches.left readers
decreasing_by exact Batches.next_left readers convert _h

/-! ## 4. The batches are the rows that are reached -/

/-- The conversion of a batch is that of its rows, each by its number. -/
def Rowwise (convert : Nat → List Object → Except Text (List R)) (accept : Nat → Object → Option R) :
    Prop :=
  ∀ start objects, (convert start objects).toOption =
    (objects.zipIdx start).mapM fun (object, number) => accept number object

/-- The rows that a list of records comes to, none where one cannot be read or converted. -/
def accepted (accept : Nat → Object → Option R) : Nat → List Item → Option (List R)
  | _, [] => some []
  | number, .object row :: items =>
    (accept number row).bind fun row => (accepted accept (number + 1) items).map (row :: ·)
  | _, .unreadable :: _ => none
  | _, .malformed :: _ => none

theorem accepted_append (accept : Nat → Object → Option R) : ∀ (number : Nat)
    (objects : List Object) (items : List Item), accepted accept number (objects.map .object ++ items) =
      ((objects.zipIdx number).mapM fun (object, number) => accept number object).bind fun rows =>
        (accepted accept (number + objects.length) items).map (rows ++ ·)
  | number, [], items => by simp
  | number, object :: objects, items => by
      simp only [List.map_cons, List.cons_append, accepted, List.zipIdx_cons, List.mapM_cons]
      rw [accepted_append accept (number + 1) objects items]
      cases accept number object with
      | none => rfl
      | some row =>
        cases (objects.zipIdx (number + 1)).mapM fun (object, number) => accept number object with
        | none => rfl
        | some rows =>
          simp [Nat.add_assoc, Nat.add_comm 1, Option.map_map, Function.comp_def]

variable {accept : Nat → Object → Option R} (hconvert : Rowwise convert accept)

include hconvert in
theorem convert_ok {start : Nat} {objects : List Object} {batch : List R}
    (h : convert start objects = .ok batch) :
    (objects.zipIdx start).mapM (fun (object, number) => accept number object) = some batch := by
  rw [← hconvert, h]
  rfl

include hconvert in
/-- One batch: the walk ends with nothing more reached, it refuses what is reached, or it delivers the
    first of it. -/
theorem Batches.next_spec (batches : Batches) (hspent : batches.spent = false) :
    ∃ batches', (batches.next readers convert = (none, batches') ∧
        reachedFrom 0 (batches.rows.items readers) = []) ∨
      (∃ reason, batches.next readers convert = (some (.error reason), batches') ∧ batches'.spent = true ∧
        accepted accept batches.read (reachedFrom 0 (batches.rows.items readers)) = none) ∨
      ∃ batch, batches.next readers convert = (some (.ok batch), batches') ∧
        batches'.spent = false ∧ batch ≠ [] ∧
        accepted accept batches.read (reachedFrom 0 (batches.rows.items readers)) =
          (accepted accept batches'.read (reachedFrom 0 (batches'.rows.items readers))).map (batch ++ ·) := by
  unfold Batches.next
  rw [if_neg (by simp [hspent])]
  split
  · rename_i count rows hfill
    obtain ⟨taken, -, heq⟩ := fill_error readers BATCH (by simp) hfill
    refine ⟨_, .inr (.inl ⟨_, rfl, rfl, ?_⟩)⟩
    rw [List.length_nil, Nat.zero_mod] at heq
    rw [heq, accepted_append]
    cases (taken.zipIdx batches.read).mapM fun (object, number) => accept number object <;> rfl
  · rename_i rows hfill
    obtain ⟨-, -, -, hnil, -⟩ := fill_ok readers BATCH (by simp) hfill
    exact ⟨_, .inl ⟨rfl, hnil rfl⟩⟩
  · rename_i objects rows hne hfill
    obtain ⟨taken, htaken, hreached, -, -⟩ := fill_ok readers BATCH (by simp) hfill
    rw [List.nil_append] at htaken
    subst htaken
    have heq := hreached fun h => hne h
    rw [List.length_nil, Nat.zero_mod] at heq
    rw [heq, accepted_append]
    split
    · rename_i batch hbatch
      have hrows := convert_ok convert hconvert hbatch
      refine ⟨_, .inr (.inr ⟨batch, rfl, hspent, ?_, ?_⟩)⟩
      · rintro rfl
        cases objects with
        | nil => exact hne rfl
        | cons object objects => simp [List.zipIdx_cons, List.mapM_cons, Option.bind_eq_some_iff] at hrows
      · rw [hrows]
        rfl
    · rename_i reason hreason
      refine ⟨_, .inr (.inl ⟨_, rfl, rfl, ?_⟩)⟩
      rw [← hconvert, hreason]
      rfl

include hconvert in
/-- **The batches hold the rows that are reached, in order, up to a refusal.** -/
theorem Batches.items_spec (batches : Batches) (hspent : batches.spent = false) :
    match accepted accept batches.read (reachedFrom 0 (batches.rows.items readers)) with
    | some rows => ∃ delivered : List (List R), batches.items readers convert = delivered.map .ok ∧
        delivered.flatten = rows ∧ [] ∉ delivered
    | none => ∃ (delivered : List (List R)) (reason : Text),
        batches.items readers convert = delivered.map .ok ++ [.error reason] ∧ [] ∉ delivered := by
  obtain ⟨batches', ⟨hnext, hnil⟩ | ⟨reason, hnext, hspent', hnone⟩ |
    ⟨batch, hnext, hspent', hne, heq⟩⟩ := batches.next_spec readers convert hconvert hspent
  · rw [hnil]
    refine ⟨[], ?_, rfl, by simp⟩
    rw [Batches.items, hnext]
    rfl
  · rw [hnone]
    refine ⟨[], reason, ?_, by simp⟩
    have hend : batches'.items readers convert = [] := by
      rw [Batches.items, Batches.next, if_pos hspent']
    rw [Batches.items, hnext]
    simp [hend]
  · have hstep : batches.items readers convert = .ok batch :: batches'.items readers convert := by
      rw [Batches.items, hnext]
    have ih := batches'.items_spec hspent'
    rw [heq]
    cases hrest : accepted accept batches'.read (reachedFrom 0 (batches'.rows.items readers)) with
    | none =>
      rw [hrest] at ih
      obtain ⟨delivered, reason, hitems, hdelivered⟩ := ih
      exact ⟨batch :: delivered, reason, by rw [hstep, hitems]; rfl, by simp [hdelivered, hne.symm]⟩
    | some rows =>
      rw [hrest] at ih
      obtain ⟨delivered, hitems, rfl, hdelivered⟩ := ih
      exact ⟨batch :: delivered, by rw [hstep, hitems]; rfl, rfl, by simp [hdelivered, hne.symm]⟩
termination_by batches.left readers
decreasing_by exact Batches.next_left readers convert hnext

end Reading

/-! ## 5. The transaction -/

/-- Why a load fails: a row is refused, or the database refuses a write. -/
inductive LoadError where
  | refused (reason : Text)
  | database
  deriving DecidableEq, Repr

section Transaction

variable {R : Type} (accepts : List R → R → Bool)

/-- Insert rows one behind another, each where the table's constraints accept it. -/
def insertRows (table : List R) : List R → Option (List R)
  | [] => some table
  | row :: rows => if accepts table row then insertRows (table ++ [row]) rows else none

/-- The rows of a batch's insert, `none` when there is nothing to bind. -/
def loadStatement (batch : List R) : Option (List R) := if batch.isEmpty then none else some batch

/-- Write a load's batches; the table is the transaction's. -/
def insertAll : List (Except Text (List R)) → List R → Nat → Except LoadError Nat × List R
  | [], table, written => (.ok written, table)
  | .error reason :: _, table, _ => (.error (.refused reason), table)
  | .ok batch :: batches, table, written =>
    match loadStatement batch with
    | none =>
      (.error (.refused "A row holds a value this command cannot store.".toList), table)
    | some rows =>
      match insertRows accepts table rows with
      | none => (.error .database, table)
      | some table => insertAll batches table (written + batch.length)

/-- Write a bulk load's batches in one transaction, which an error rolls back. -/
def loadRecords (batches : List (Except Text (List R))) (table : List R) :
    Except LoadError Nat × List R :=
  match insertAll accepts batches table 0 with
  | (.ok written, table') => (.ok written, table')
  | (.error reason, _) => (.error reason, table)

theorem insertRows_append (table rows rows' : List R) : insertRows accepts table (rows ++ rows') =
      (insertRows accepts table rows).bind fun table => insertRows accepts table rows' := by
  induction rows generalizing table with
  | nil => rfl
  | cons row rows ih =>
    simp only [List.cons_append, insertRows]
    split
    · exact ih _
    · rfl

theorem insertRows_eq {table rows table' : List R} (h : insertRows accepts table rows = some table') :
    table' = table ++ rows := by
  induction rows generalizing table with
  | nil =>
    cases h
    simp
  | cons row rows ih =>
    rw [insertRows] at h
    split at h
    · simpa using ih h
    · cases h

theorem insertAll_ok {delivered : List (List R)} (hne : [] ∉ delivered) (table : List R)
    (written : Nat) (rest : List (Except Text (List R))) :
    (∃ table', insertRows accepts table delivered.flatten = some table' ∧
        insertAll accepts (delivered.map .ok ++ rest) table written =
          insertAll accepts rest table' (written + delivered.flatten.length)) ∨
      (insertRows accepts table delivered.flatten = none ∧
        ∃ table', insertAll accepts (delivered.map .ok ++ rest) table written =
          (.error .database, table')) := by
  induction delivered generalizing table written with
  | nil => exact .inl ⟨table, rfl, by simp⟩
  | cons batch delivered ih =>
    have hbatch : loadStatement batch = some batch := by
      simp only [List.mem_cons, not_or] at hne
      rw [loadStatement, if_neg (by simpa using Ne.symm hne.1)]
    have hrest : [] ∉ delivered := fun h => hne (List.mem_cons_of_mem _ h)
    simp only [List.map_cons, List.cons_append, List.flatten_cons, insertRows_append, insertAll,
      hbatch]
    cases insertRows accepts table batch with
    | none => exact .inr ⟨rfl, table, rfl⟩
    | some table' =>
      simpa [Nat.add_assoc] using ih hrest table' (written + batch.length)

end Transaction

/-! ## 6. Converting records -/

inductive RecordTable where
  | messages
  | particles
  | alerts
  | logs
  deriving DecidableEq, Repr

/-- The wire keys a record accepts; a particle's span travels without a column. -/
def RecordTable.accepted : RecordTable → List String
  | messages => ["id", "address", "timestamp", "connection", "direction", "data"]
  | particles => ["id", "address", "timestamp", "connection", "type", "data", "span"]
  | alerts => ["id", "address", "timestamp", "level", "type", "data"]
  | logs => ["id", "address", "timestamp", "level", "content"]

/-- The loop of `complete` over the accepted keys: how many of the row's fields are left, and the row
    filled in. -/
def completeFrom (object : Object) (default : String → Option Json) :
    List String → Nat × Object → Nat × Object
  | [], state => state
  | key :: keys, (remaining, completed) =>
    completeFrom object default keys
      (match object.get key with
        | some value => (remaining - 1, completed.insert key value)
        | none =>
          match default key with
          | some value => (remaining, completed.insert key value)
          | none => (remaining, completed))

/-- Fill in a row's absent fields and refuse one carrying a field the entity has no place for. -/
def complete (keys : List String) (object : Object) (default : String → Option Json) :
    Except Text Object :=
  let (remaining, completed) := completeFrom object default keys (object.length, [])
  if remaining ≠ 0 then
    let unaccepted := ((object.map (·.1)).find? fun key => !keys.contains key).getD ""
    .error ("`".toList ++ unaccepted.toList ++ "` is not a field a write takes.".toList)
  else .ok completed

/-- The declared default of an absent record column. -/
def RecordTable.columnDefault : RecordTable → String → Option Json
  | alerts, "data" => some (.object [])
  | messages, "connection" => some .null
  | _, _ => none

/-- The value an absent record field takes; a fresh id and the current time are generated for the row. -/
def recordDefault (table : RecordTable) (generated : String → Json) (key : String) : Option Json :=
  match table.columnDefault key with
  | some value => some value
  | none => some (if key = "id" ∨ key = "timestamp" then generated key else .null)

section Records

variable {R : Type} (deserialize : RecordTable → Object → Except Text R)
  (generated : Nat → String → Json)

/-- Deserialize one batch of wire objects into records. -/
def RecordTable.records (table : RecordTable) (start : Nat) (objects : List Object) :
    Except Text (List R) :=
  ((objects.zipIdx start).mapM fun (object, number) =>
    complete table.accepted object (recordDefault table (generated number))).bind fun rows =>
      rows.mapM (deserialize table)

/-- The record one wire object comes to. -/
def RecordTable.record (table : RecordTable) (number : Nat) (object : Object) : Option R :=
  ((complete table.accepted object (recordDefault table (generated number))).bind
    (deserialize table)).toOption

/-- Two passes over a list succeed where both succeed on each entry. -/
theorem toOption_mapM_bind {α β γ ε : Type} (f : α → Except ε β) (g : β → Except ε γ) :
    ∀ items : List α, ((items.mapM f).bind fun ys => ys.mapM g).toOption =
      items.mapM fun x => ((f x).bind g).toOption
  | [] => rfl
  | x :: items => by
      have ih := toOption_mapM_bind f g items
      rw [List.mapM_cons, List.mapM_cons, ← ih]
      cases f x with
      | error e => rfl
      | ok y =>
        cases items.mapM f with
        | error e => cases hy : g y <;> simp [Except.bind, Except.toOption, hy, bind]
        | ok ys =>
          show (((y :: ys).mapM g)).toOption = _
          rw [List.mapM_cons]
          cases hy : g y with
          | error e => simp [Except.bind, Except.toOption, hy, bind]
          | ok z =>
            cases hz : ys.mapM g with
            | error e => simp [Except.bind, Except.toOption, hy, hz, bind]
            | ok zs => simp [Except.bind, Except.toOption, hy, hz, bind, pure, Except.pure]

theorem RecordTable.records_rowwise (table : RecordTable) :
    Rowwise (table.records deserialize generated) (table.record deserialize generated) :=
  fun start objects => toOption_mapM_bind _ (deserialize table) (objects.zipIdx start)

end Records

/-! ## 7. A load lands whole or not at all -/

/-- Every record of the input comes to its row, and the rows are inserted in order behind the table. -/
def Loaded {R : Type} (accepts : List R → R → Bool) (accept : Nat → Object → Option R)
    (input : Option (List Item)) (table table' : List R) (written : Nat) : Prop :=
  ∃ items rows, input = some items ∧ accepted accept 0 items = some rows ∧
    insertRows accepts table rows = some table' ∧ table' = table ++ rows ∧ written = rows.length

/-- What a load leaves behind: the whole input, or an error and the table as it was. -/
def LandsWhole {R : Type} (accepts : List R → R → Bool) (accept : Nat → Object → Option R)
    (input : Option (List Item)) (table : List R) (outcome : Except LoadError Nat × List R) : Prop :=
  (∀ written, outcome.1 = .ok written → Loaded accepts accept input table outcome.2 written) ∧
    ((¬ ∃ table' written, Loaded accepts accept input table table' written) →
      (∃ reason, outcome.1 = .error reason) ∧ outcome.2 = table)

def reachedLands {R : Type} (accepts : List R → R → Bool) (accept : Nat → Object → Option R)
    (items : List Item) (table : List R) : Bool :=
  ((accepted accept 0 (reachedFrom 0 items)).bind (insertRows accepts table)).isSome

section Landing

variable {R : Type} {accepts : List R → R → Bool} {accept : Nat → Object → Option R}

/-- A record that cannot be read leaves nothing to land. -/
theorem accepted_of_unreadable {items : List Item} (h : Item.unreadable ∈ items) (number : Nat) :
    accepted accept number items = none := by
  induction items generalizing number with
  | nil => cases h
  | cons item items ih =>
    cases item with
    | unreadable => rfl
    | malformed => rfl
    | object row =>
      have hrest := ih (by simpa using h) (number + 1)
      cases hrow : accept number row <;> simp [accepted, hrow, hrest]

/-- Where every line can be read, all is reached up to a malformed row. -/
theorem accepted_reachedFrom {items : List Item} (h : Item.unreadable ∉ items) (number held : Nat) :
    accepted accept number (reachedFrom held items) = accepted accept number items := by
  induction items generalizing number held with
  | nil => rfl
  | cons item items ih =>
    cases item with
    | unreadable => simp at h
    | malformed => cases held <;> rfl
    | object row =>
      have hrest : Item.unreadable ∉ items := fun hm => h (List.mem_cons_of_mem _ hm)
      rw [reachedFrom, accepted, accepted]
      simp only [ih hrest]

end Landing

section Load

variable (readers : Readers) {R : Type} (deserialize : RecordTable → Object → Except Text R)
  (generated : Nat → String → Json) (accepts : List R → R → Bool)

/-- Run a load over an input; a source that cannot be opened starts none. -/
def load (table : RecordTable) (source : List UInt8) (format : LoadFormat) (stored : List R) :
    Except LoadError Nat × List R :=
  match Rows.start readers source format with
  | none => (.error (.refused []), stored)
  | some rows =>
    loadRecords accepts
      (Batches.items readers (table.records deserialize generated) { rows }) stored

/-- The records of an input, none where it cannot be opened. -/
def inputItems (source : List UInt8) (format : LoadFormat) : Option (List Item) :=
  (Rows.start readers source format).map (Rows.items readers)

variable (table : RecordTable) (source : List UInt8) (format : LoadFormat) (stored : List R)

theorem load_outcome {rows : Rows} (hrows : Rows.start readers source format = some rows) :
    (∃ reached table', accepted (table.record deserialize generated) 0
          (reachedFrom 0 (rows.items readers)) = some reached ∧
        insertRows accepts stored reached = some table' ∧
        load readers deserialize generated accepts table source format stored = (.ok reached.length, table')) ∨
      (reachedLands accepts (table.record deserialize generated) (rows.items readers) stored = false ∧
        ∃ reason, load readers deserialize generated accepts table source format stored =
          (.error reason, stored)) := by
  have hload : load readers deserialize generated accepts table source format stored =
      loadRecords accepts (Batches.items readers (table.records deserialize generated) { rows })
        stored := by
    rw [load, hrows]
  have hspec := Batches.items_spec readers _ (table.records_rowwise deserialize generated) { rows } rfl
  rw [hload, loadRecords]
  unfold reachedLands
  cases hreached : accepted (table.record deserialize generated) 0
      (reachedFrom 0 (rows.items readers)) with
  | none =>
    rw [hreached] at hspec
    obtain ⟨delivered, reason, hitems, hne⟩ := hspec
    refine .inr ⟨rfl, ?_⟩
    rw [hitems]
    rcases insertAll_ok accepts hne stored 0 [.error reason] with ⟨table', -, h⟩ | ⟨-, table', h⟩
    · exact ⟨.refused reason, by rw [h]; rfl⟩
    · exact ⟨.database, by rw [h]⟩
  | some reached =>
    rw [hreached] at hspec
    obtain ⟨delivered, hitems, rfl, hne⟩ := hspec
    have hrest : delivered.map Except.ok = (delivered.map Except.ok : List (Except Text (List R))) ++ [] := by
      simp
    rw [hitems, hrest]
    rcases insertAll_ok accepts hne stored 0 [] with ⟨table', hinsert, h⟩ | ⟨hinsert, table', h⟩
    · exact .inl ⟨_, table', rfl, hinsert, by rw [h]; simp [insertAll]⟩
    · exact .inr ⟨by simp [hinsert], .database, by rw [h]⟩

theorem landsWhole_iff_of_rows {rows : Rows} (hrows : Rows.start readers source format = some rows) :
    LandsWhole accepts (table.record deserialize generated) (inputItems readers source format) stored
        (load readers deserialize generated accepts table source format stored) ↔
      Item.unreadable ∉ rows.items readers ∨
        reachedLands accepts (table.record deserialize generated) (rows.items readers) stored = false := by
  have hinput : inputItems readers source format = some (rows.items readers) := by
    rw [inputItems, hrows]
    rfl
  rw [hinput]
  rcases load_outcome readers deserialize generated accepts table source format stored hrows with
    ⟨reached, table', haccepted, hinsert, hload⟩ | ⟨hlands, reason, hload⟩
  · have hlands : reachedLands accepts (table.record deserialize generated) (rows.items readers)
        stored = true := by
      simp [reachedLands, haccepted, hinsert]
    rw [hload, hlands]
    simp only [Bool.true_eq_false, or_false]
    constructor
    · rintro ⟨hwhole, -⟩ hunreadable
      obtain ⟨items, rows', hitems, hrows', -⟩ := hwhole _ rfl
      cases hitems
      rw [accepted_of_unreadable hunreadable] at hrows'
      cases hrows'
    · intro hreadable
      rw [accepted_reachedFrom hreadable] at haccepted
      have hloaded : Loaded accepts (table.record deserialize generated)
          (some (rows.items readers)) stored table' reached.length :=
        ⟨_, reached, rfl, haccepted, hinsert, insertRows_eq accepts hinsert, rfl⟩
      refine ⟨fun written hwritten => ?_, fun hnone => absurd ⟨_, _, hloaded⟩ hnone⟩
      cases hwritten
      exact hloaded
  · rw [hload, hlands]
    refine iff_of_true ⟨fun written hwritten => ?_, fun _ => ⟨⟨reason, rfl⟩, rfl⟩⟩ (.inr rfl)
    cases hwritten

/-- **A load lands whole or not at all exactly when every line of the input can be read, or one of the rows
    that are reached is refused.** -/
theorem landsWhole_iff :
    LandsWhole accepts (table.record deserialize generated) (inputItems readers source format) stored
        (load readers deserialize generated accepts table source format stored) ↔
      ∀ items, inputItems readers source format = some items →
        Item.unreadable ∉ items ∨
          reachedLands accepts (table.record deserialize generated) items stored = false := by
  cases hrows : Rows.start readers source format with
  | none =>
    have hinput : inputItems readers source format = none := by rw [inputItems, hrows]; rfl
    have hload : load readers deserialize generated accepts table source format stored =
        (.error (.refused []), stored) := by rw [load, hrows]
    rw [hinput, hload]
    refine iff_of_true ⟨fun written hwritten => ?_, fun _ => ⟨⟨_, rfl⟩, rfl⟩⟩ (by simp)
    cases hwritten
  | some rows =>
    rw [landsWhole_iff_of_rows readers deserialize generated accepts table source format stored hrows,
      inputItems, hrows]
    simp

end Load

def logLine : Text := "\x7b\"address\":\"~\",\"level\":\"info\",\"content\":\"\"\x7d".toList

/-- The object of the log line. -/
def logObject : Object :=
  [("address", .string "~".toList), ("level", .string "info".toList), ("content", .string [])]

def logReaders : Readers where
  json line := if line = logLine then some (.object logObject) else none
  csv _ := none

/-- The log line, a line that is not UTF-8, and the log line again. -/
def brokenSource : List UInt8 :=
  (logLine.map fun c => UInt8.ofNat c.toNat) ++ [10, 255, 10] ++
    (logLine.map fun c => UInt8.ofNat c.toNat) ++ [10]

/-- The line in the middle is skipped and the load reports two rows. -/
theorem not_landsWhole_brokenSource :
    ¬ LandsWhole (fun _ _ => true)
      (RecordTable.logs.record (fun _ object => .ok object) fun _ _ => .null)
      (inputItems logReaders brokenSource .json) []
      (load logReaders (fun _ object => .ok object) (fun _ _ => .null) (fun _ _ => true)
        .logs brokenSource .json []) := by
  have hlines : lines brokenSource = [some logLine, none, some logLine] := by decide
  have hrows : Rows.start logReaders brokenSource .json =
      some (.json [some logLine, none, some logLine]) := by rw [Rows.start, hlines]
  rw [landsWhole_iff_of_rows _ _ _ _ _ _ _ _ hrows, not_or]
  have hitems : (Rows.json [some logLine, none, some logLine]).items logReaders =
      [.object logObject, .unreadable, .object logObject] := rfl
  rw [hitems]
  exact ⟨by simp, by decide⟩

end Ceres.Database
