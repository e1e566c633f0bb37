/-
  File:      Ceres/Database/Upsert.lean
  Subject:   A FLUSH AS STATEMENTS (`upsert_statements` of `rust/ceres-database/src/writer.rs`).

  A flush replaces one upsert for each record by multi-row upserts. A statement must not name one id
  twice, so of each batch only the last record of an id is kept: their indexes are collected in a hash
  map and sorted. What is left is cut into statements of `BATCH` rows.

  * `lastIndexes`, `dedupeLast`, `chunks`, `upsertStatements` -- what is sent;
  * `executeStatement`, `execute`, `sequential` -- what the database does with it, and what the writes it
    replaces would do;
  * `dedupeLast_eq` -- the indexes give the records whose id does not come again;
  * **`flush_eq_sequential`** -- no statement is refused, and the tables are as after the single upserts.
-/
import Ceres.Library.Dict
import Ceres.Database.Load

namespace Ceres.Database

open Ceres.Library

set_option linter.unusedSectionVars false

/-! ## 1. The statements -/

section Statements

variable {K R : Type} [DecidableEq K] (key : R → K)

def lastIndexes (entries : List (R × Nat)) (last : Dict K Nat) : Dict K Nat :=
  entries.foldl (fun last entry => last.set (key entry.1) entry.2) last

/-- A batch keeping only the last record per key. A hash map gives its values in any order; they are
    sorted. -/
def dedupeLast (records : List R) : List R :=
  ((lastIndexes key records.zipIdx []).values.insertionSort (· ≤ ·)).filterMap fun index => records[index]?

/-- The loop that takes a statement's rows while there are any. -/
def chunksFrom : Nat → List R → List (List R)
  | 0, _ => []
  | turns + 1, rows =>
    if rows.isEmpty then [] else rows.take BATCH :: chunksFrom turns (rows.drop BATCH)

/-- At most `BATCH` rows each. -/
def chunks (rows : List R) : List (List R) := chunksFrom rows.length rows

end Statements

structure Records (R : RecordTable → Type) where
  table : RecordTable
  records : List (R table)

/-- One multi-row upsert, with the id and the columns of each row. -/
structure InsertStatement (K V : Type) where
  table : RecordTable
  rows : List (K × V)

/-- The rows of each record table, by id. -/
abbrev Store (K V : Type) : Type := RecordTable → K → Option V

section Flush

variable {K V : Type} [DecidableEq K] {R : RecordTable → Type}
  (id : ∀ table, R table → K) (rowValues : ∀ table, R table → V)

def upsertStatements (batch : Records R) : List (InsertStatement K V) :=
  (chunks ((dedupeLast (id batch.table) batch.records).map fun record =>
    (id batch.table record, rowValues batch.table record))).map fun rows => ⟨batch.table, rows⟩

/-! ## 2. The database -/

/-- Insert a row, or update every other column of the row with its id. -/
def upsertRow (rows : K → Option V) (row : K × V) : K → Option V :=
  Function.update rows row.1 (some row.2)

/-- Run one statement; one that names an id twice is refused. -/
def executeStatement (store : Store K V) (statement : InsertStatement K V) : Option (Store K V) :=
  if (statement.rows.map Prod.fst).Nodup then
    some (Function.update store statement.table (statement.rows.foldl upsertRow (store statement.table)))
  else none

/-- Run the statements of a transaction in order. -/
def execute (store : Store K V) : List (InsertStatement K V) → Option (Store K V)
  | [] => some store
  | statement :: statements => (executeStatement store statement).bind fun store => execute store statements

/-- Upsert the records of the batches one by one, in input order. -/
def sequential (store : Store K V) (batches : List (Records R)) : Store K V :=
  batches.foldl (fun store batch =>
    batch.records.foldl (fun store record =>
      Function.update store batch.table
        (upsertRow (store batch.table) (id batch.table record, rowValues batch.table record))) store)
    store

end Flush

/-! ## 3. The records that are kept -/

section Dedupe

variable {K R : Type} [DecidableEq K] (key : R → K)

/-- The records whose key does not come again. -/
def lastOnes : List R → List R
  | [] => []
  | record :: records =>
    if key record ∈ records.map key then lastOnes records else record :: lastOnes records

theorem sublist_lastOnes : ∀ records : List R, (lastOnes key records).Sublist records
  | [] => List.Sublist.slnil
  | record :: records => by
      rw [lastOnes]
      split
      · exact (sublist_lastOnes records).cons record
      · exact (sublist_lastOnes records).cons_cons record

theorem get_lastIndexes : ∀ (records : List R) (start : Nat) (last : Dict K Nat) (k : K),
    Dict.get (lastIndexes key (records.zipIdx start) last) k =
      if k ∈ records.map key then Dict.get (lastIndexes key (records.zipIdx start) []) k else Dict.get last k
  | [], start, last, k => by simp [lastIndexes]
  | record :: records, start, last, k => by
      show Dict.get (lastIndexes key (records.zipIdx (start + 1)) (last.set (key record) start)) k =
        if k ∈ key record :: records.map key then
          Dict.get (lastIndexes key (records.zipIdx (start + 1)) (Dict.set [] (key record) start)) k
        else Dict.get last k
      rw [get_lastIndexes records (start + 1) (last.set (key record) start),
        get_lastIndexes records (start + 1) (Dict.set [] (key record) start), Dict.get_set, Dict.get_set]
      by_cases hrest : k ∈ records.map key
      · simp [hrest]
      · by_cases hk : k = key record
        · simp [hk]
        · simp [hrest, hk, Ne.symm hk]

theorem le_of_get_lastIndexes : ∀ (records : List R) (start : Nat) (k : K) (index : Nat),
    Dict.get (lastIndexes key (records.zipIdx start) []) k = some index → start ≤ index
  | [], start, k, index, h => by simp [lastIndexes] at h
  | record :: records, start, k, index, h => by
      have hcons : Dict.get (lastIndexes key (records.zipIdx (start + 1)) (Dict.set [] (key record) start))
          k = some index := h
      rw [get_lastIndexes, Dict.get_set, Dict.get_nil] at hcons
      by_cases hrest : k ∈ records.map key
      · rw [if_pos hrest] at hcons
        exact (Nat.le_succ start).trans (le_of_get_lastIndexes records (start + 1) k index hcons)
      · rw [if_neg hrest] at hcons
        split at hcons
        · exact (Option.some.inj hcons).le
        · cases hcons

theorem lastOnes_eq : ∀ (records : List R) (start : Nat) (last : Dict K Nat),
    ((records.zipIdx start).filter fun entry =>
      Dict.get (lastIndexes key (records.zipIdx start) last) (key entry.1) = some entry.2).map Prod.fst =
      lastOnes key records
  | [], start, last => rfl
  | record :: records, start, last => by
      have hcons : lastIndexes key ((record :: records).zipIdx start) last =
          lastIndexes key (records.zipIdx (start + 1)) (last.set (key record) start) := rfl
      have hhead : Dict.get (lastIndexes key (records.zipIdx (start + 1)) (last.set (key record) start))
          (key record) = some start ↔ key record ∉ records.map key := by
        rw [get_lastIndexes]
        by_cases hrest : key record ∈ records.map key
        · rw [if_pos hrest]
          refine iff_of_false (fun h => ?_) (not_not.mpr hrest)
          have := le_of_get_lastIndexes key records (start + 1) _ _ h
          omega
        · rw [if_neg hrest, Dict.get_set, if_pos rfl]
          exact iff_of_true rfl hrest
      rw [hcons, List.zipIdx_cons, List.filter_cons, lastOnes]
      by_cases hrest : key record ∈ records.map key
      · rw [if_neg (by simpa [hhead] using hrest), if_pos hrest]
        exact lastOnes_eq records (start + 1) _
      · rw [if_pos (by simpa [hhead] using hrest), if_neg hrest, List.map_cons]
        exact congrArg _ (lastOnes_eq records (start + 1) _)

theorem indexed_lastIndexes {records : List R} : ∀ (entries : List (R × Nat)) (last : Dict K Nat),
    (∀ entry ∈ entries, records[entry.2]? = some entry.1) → (Dict.keys last).Nodup →
    (∀ entry ∈ last, ∃ record, records[entry.2]? = some record ∧ key record = entry.1) →
    (Dict.keys (lastIndexes key entries last)).Nodup ∧
      ∀ entry ∈ lastIndexes key entries last, ∃ record, records[entry.2]? = some record ∧ key record = entry.1
  | [], last, _, hkeys, hlast => ⟨hkeys, hlast⟩
  | entry :: entries, last, hentries, hkeys, hlast => by
      refine indexed_lastIndexes entries (last.set (key entry.1) entry.2)
        (fun e he => hentries e (List.mem_cons_of_mem entry he)) (Dict.nodup_keys_set hkeys _ _)
        fun e he => ?_
      rcases Dict.mem_set he with he | rfl
      · exact hlast e he
      · exact ⟨entry.1, hentries entry List.mem_cons_self, rfl⟩

theorem getElem?_of_mem_zipIdx {records : List R} {entry : R × Nat} (h : entry ∈ records.zipIdx) :
    records[entry.2]? = some entry.1 :=
  List.mk_mem_zipIdx_iff_getElem?.mp h

/-- **De-duplication keeps the records whose key does not come again**, in their order. -/
theorem dedupeLast_eq (records : List R) : dedupeLast key records = lastOnes key records := by
  obtain ⟨hkeys, hindexed⟩ := indexed_lastIndexes key records.zipIdx []
    (fun entry hentry => getElem?_of_mem_zipIdx hentry) List.nodup_nil (by simp)
  have hmap : (lastIndexes key records.zipIdx []).values.Nodup := by
    refine List.Nodup.map_on (fun a ha b hb heq => ?_) (List.Nodup.of_map _ hkeys)
    obtain ⟨r, hr, hra⟩ := hindexed a ha
    obtain ⟨q, hq, hqb⟩ := hindexed b hb
    rw [heq, hq, Option.some.injEq] at hr
    exact Prod.ext (by rw [← hra, ← hqb, hr]) heq
  have hsnd : (records.zipIdx.map Prod.snd).Pairwise (· < ·) := by
    rw [List.zipIdx_map_snd]
    exact List.pairwise_lt_range'
  have hsub := (List.filter_sublist (l := records.zipIdx) (p := fun entry =>
    Dict.get (lastIndexes key records.zipIdx []) (key entry.1) = some entry.2)).map Prod.snd
  have hperm : (lastIndexes key records.zipIdx []).values.Perm
      ((records.zipIdx.filter fun entry =>
        Dict.get (lastIndexes key records.zipIdx []) (key entry.1) = some entry.2).map Prod.snd) := by
    refine (List.perm_ext_iff_of_nodup hmap (hsnd.sublist hsub).nodup).mpr fun index => ?_
    simp only [Dict.values, List.mem_map, List.mem_filter, decide_eq_true_eq]
    constructor
    · intro h
      obtain ⟨entry, hentry, rfl⟩ := h
      obtain ⟨record, hrecord, hkey⟩ := hindexed entry hentry
      refine ⟨(record, entry.2), ⟨List.mk_mem_zipIdx_iff_getElem?.mpr hrecord, ?_⟩, rfl⟩
      show Dict.get _ (key record) = some entry.2
      rw [hkey]
      exact Dict.get_of_mem hkeys hentry
    · intro h
      obtain ⟨entry, ⟨-, hget⟩, rfl⟩ := h
      exact ⟨(key entry.1, entry.2), Dict.mem_of_get hget, rfl⟩
  have hsorted : (lastIndexes key records.zipIdx []).values.insertionSort (· ≤ ·) =
      (records.zipIdx.filter fun entry =>
        Dict.get (lastIndexes key records.zipIdx []) (key entry.1) = some entry.2).map Prod.snd :=
    ((List.perm_insertionSort _ _).trans hperm).eq_of_pairwise' (List.pairwise_insertionSort _ _)
      ((hsnd.sublist hsub).imp le_of_lt)
  rw [dedupeLast, hsorted, ← lastOnes_eq key records 0 [], List.filterMap_map]
  have hread : ∀ entries : List (R × Nat), (∀ entry ∈ entries, records[entry.2]? = some entry.1) →
      entries.filterMap ((fun index => records[index]?) ∘ Prod.snd) = entries.map Prod.fst := by
    intro entries
    induction entries with
    | nil => simp
    | cons entry entries ih =>
      intro h
      obtain ⟨hentry, hrest⟩ := List.forall_mem_cons.mp h
      simp only [List.filterMap_cons, Function.comp_apply, hentry, List.map_cons]
      rw [← ih hrest]
      rfl
  exact hread _ fun entry hentry => getElem?_of_mem_zipIdx (List.mem_filter.mp hentry).1

theorem nodup_lastOnes : ∀ records : List R, ((lastOnes key records).map key).Nodup
  | [] => List.nodup_nil
  | record :: records => by
      rw [lastOnes]
      split
      · exact nodup_lastOnes records
      case isFalse hnot =>
        rw [List.map_cons, List.nodup_cons]
        exact ⟨fun h => hnot ((sublist_lastOnes key records).map key |>.subset h), nodup_lastOnes records⟩

end Dedupe

/-! ## 4. What the rows leave -/

section Rows

variable {K V R : Type} [DecidableEq K]

/-- A row whose id comes again leaves nothing. -/
theorem foldl_upsertRow_overwritten : ∀ (rows : List (K × V)) (stored : K → Option V) (row : K × V),
    row.1 ∈ rows.map Prod.fst → rows.foldl upsertRow (upsertRow stored row) = rows.foldl upsertRow stored
  | [], _, _, h => by cases h
  | next :: rows, stored, row, h => by
      rw [List.foldl_cons, List.foldl_cons]
      by_cases hid : row.1 = next.1
      · have hsame : upsertRow (upsertRow stored row) next = upsertRow stored next := by
          unfold upsertRow
          rw [hid, Function.update_idem]
        rw [hsame]
      · have hcomm : upsertRow (upsertRow stored row) next = upsertRow (upsertRow stored next) row :=
          Function.update_comm hid _ _ _
        have hlater : row.1 ∈ rows.map Prod.fst := (List.mem_cons.mp h).resolve_left hid
        rw [hcomm, foldl_upsertRow_overwritten rows _ row hlater]

/-- **The last one of each id leaves what all of them leave.** -/
theorem foldl_upsertRow_lastOnes (key : R → K) (value : R → V) : ∀ (records : List R) (stored : K → Option V),
    ((lastOnes key records).map fun record => (key record, value record)).foldl upsertRow stored =
      (records.map fun record => (key record, value record)).foldl upsertRow stored
  | [], _ => rfl
  | record :: records, stored => by
      rw [lastOnes, List.map_cons, List.foldl_cons]
      split
      case isTrue hagain =>
        rw [foldl_upsertRow_overwritten _ stored _ (by simpa using hagain)]
        exact foldl_upsertRow_lastOnes key value records stored
      case isFalse =>
        exact foldl_upsertRow_lastOnes key value records _

theorem flatten_chunksFrom : ∀ (turns : Nat) (rows : List R), rows.length ≤ turns →
    (chunksFrom turns rows).flatten = rows
  | 0, rows, h => (List.length_eq_zero_iff.mp (Nat.le_zero.mp h)).symm
  | turns + 1, rows, h => by
      rw [chunksFrom]
      split
      case isTrue hempty => exact (List.isEmpty_iff.mp hempty).symm
      case isFalse =>
        have hdrop : (rows.drop BATCH).length ≤ turns := by
          rw [List.length_drop, BATCH]
          omega
        rw [List.flatten_cons, flatten_chunksFrom turns _ hdrop, List.take_append_drop]

theorem flatten_chunks (rows : List R) : (chunks rows).flatten = rows :=
  flatten_chunksFrom rows.length rows le_rfl

theorem length_le_of_mem_chunksFrom : ∀ (turns : Nat) (rows : List R), ∀ chunk ∈ chunksFrom turns rows,
    chunk.length ≤ BATCH
  | 0, _, chunk, h => by cases h
  | turns + 1, rows, chunk, h => by
      rw [chunksFrom] at h
      split at h
      · cases h
      · rcases List.mem_cons.mp h with rfl | h
        · exact List.length_take_le _ _
        · exact length_le_of_mem_chunksFrom turns _ chunk h

end Rows

/-! ## 5. A transaction -/

section Transaction

variable {K V : Type} [DecidableEq K] {R : RecordTable → Type}
  (id : ∀ table, R table → K) (rowValues : ∀ table, R table → V)

theorem execute_append : ∀ (statements others : List (InsertStatement K V)) (store : Store K V),
    execute store (statements ++ others) = (execute store statements).bind fun store => execute store others
  | [], _, _ => rfl
  | statement :: statements, others, store => by
      simp only [List.cons_append, execute]
      cases executeStatement store statement with
      | none => rfl
      | some stored => exact execute_append statements others stored

theorem execute_rows (table : RecordTable) : ∀ (rows : List (List (K × V))) (store : Store K V),
    (rows.flatten.map Prod.fst).Nodup → execute store (rows.map fun chunk => ⟨table, chunk⟩) =
      some (Function.update store table (rows.flatten.foldl upsertRow (store table)))
  | [], store, _ => by simp [execute]
  | chunk :: rows, store, h => by
      rw [List.flatten_cons, List.map_append, List.nodup_append] at h
      obtain ⟨hchunk, hrows, -⟩ := h
      have hone : executeStatement store ⟨table, chunk⟩ =
          some (Function.update store table (chunk.foldl upsertRow (store table))) := if_pos hchunk
      rw [List.map_cons, execute, hone, Option.bind_some, execute_rows table rows _ hrows,
        Function.update_self, Function.update_idem, List.flatten_cons, List.foldl_append]

theorem foldl_update (table : RecordTable) : ∀ (records : List (R table)) (store : Store K V),
    records.foldl (fun store record =>
      Function.update store table (upsertRow (store table) (id table record, rowValues table record))) store =
      Function.update store table
        ((records.map fun record => (id table record, rowValues table record)).foldl upsertRow (store table))
  | [], store => by simp
  | record :: records, store => by
      rw [List.foldl_cons, foldl_update table records, Function.update_self, Function.update_idem,
        List.map_cons, List.foldl_cons]

theorem execute_upsertStatements (store : Store K V) (batch : Records R) :
    execute store (upsertStatements id rowValues batch) = some (sequential id rowValues store [batch]) := by
  have hids : ((lastOnes (id batch.table) batch.records).map fun record =>
      (id batch.table record, rowValues batch.table record)).map Prod.fst =
      (lastOnes (id batch.table) batch.records).map (id batch.table) := by
    rw [List.map_map]
    rfl
  rw [upsertStatements, dedupeLast_eq, execute_rows, flatten_chunks, foldl_upsertRow_lastOnes]
  · show _ = some (batch.records.foldl _ store)
    rw [foldl_update]
  · rw [flatten_chunks, hids]
    exact nodup_lastOnes (id batch.table) batch.records

theorem execute_batches : ∀ (batches : List (Records R)) (store : Store K V),
    execute store (batches.flatMap (upsertStatements id rowValues)) =
      some (sequential id rowValues store batches)
  | [], _ => rfl
  | batch :: batches, store => by
      rw [List.flatMap_cons, execute_append, execute_upsertStatements, Option.bind_some,
        execute_batches batches]
      rfl

/-- **A flush equals the sequential writes it replaces**: no statement of it is refused, the state left is
    the one left by upserting the records one by one in input order, and no statement has more than `BATCH`
    rows. -/
theorem flush_eq_sequential (store : Store K V) (batches : List (Records R)) :
    execute store (batches.flatMap (upsertStatements id rowValues)) =
        some (sequential id rowValues store batches) ∧
      ∀ statement ∈ batches.flatMap (upsertStatements id rowValues), statement.rows.length ≤ BATCH := by
  refine ⟨execute_batches id rowValues batches store, fun statement hstatement => ?_⟩
  obtain ⟨batch, -, hmem⟩ := List.mem_flatMap.mp hstatement
  obtain ⟨rows, hrows, rfl⟩ := List.mem_map.mp hmem
  exact length_le_of_mem_chunksFrom _ _ rows hrows

end Transaction

end Ceres.Database
