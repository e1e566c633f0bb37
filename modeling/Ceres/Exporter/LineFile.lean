/-
  File:      Ceres/Exporter/LineFile.lean
  Subject:   A LIVE EXPORTER OF LINES (`exporter.py`: `__live_loop`, `__check_start`, `__resume`,
             `__write_live`, `__write_period_live` for a resumable line writer, `__last_key`, `__forget`,
             `ExportLineWriter.append`).

  A wake appends the records of its ranges behind the last key of each period's file, which it has in
  memory or reads from the file; only reading it cuts a torn line off. An append may raise with any
  part of its bytes in the file.

  * `wakePeriod`, `resume`, `checkPeriod` -- one period of a wake and of the check at the start;
  * `step` -- the system, with stores, notifications, restarts, failing appends and runs that write or
    remove a file;
  * `Calm` -- the steps after which a torn file is read again before anything is appended to it;
  * `Inv` -- every file is the start of a file in order, and a last key in memory is its last;
  * **`lines_stay_in_order`** -- along calm steps the file of every period that a wake or a check is
    through with is the header and whole lines whose keys strictly increase;
  * `torn_append_repeats` -- an append that fails while the last key is in memory.
-/
import Ceres.Exporter.Formats
import Ceres.Library.Run
import Mathlib.Data.List.Sort

namespace Ceres.Exporter.LineFile

open Ceres.Library Ceres.Database LineWriter

variable {ρ : Type} {key : ρ → ExportKey} (W : LineWriter key)

/-! ## 1. One period -/

/-- The stored records of a range, in the order of their keys. -/
def query (key : ρ → ExportKey) (db : List ρ) (span : ExportSpan) : List ρ :=
  (db.filter fun r => span.holds (key r).timestamp).insertionSort fun a b => key a ≤ key b

/-- What is left of a period: its file, what is remembered, and whether it raised. -/
structure Outcome where
  file : Option (List UInt8)
  live : Live
  raised : Bool

/-- The bytes an append adds to a file. -/
def appended (file : List UInt8) (rs : List ρ) : List UInt8 :=
  (if file = [] then W.header else []) ++ (rs.map W.encode).flatten

/-- Append records; where `cut` is given, raise when so many bytes have reached the file. -/
def append (file : List UInt8) (rs : List ρ) (cut : Option Nat) : List UInt8 × Bool :=
  match cut with
  | none => (file ++ appended W file rs, false)
  | some n => (file ++ (appended W file rs).take n, true)

/-- `__last_key`: the last key of a file, which loses a torn record. -/
def lastKeyOf (file : Option (List UInt8)) : Except FileError (Option ExportKey × Option (List UInt8)) :=
  match file with
  | none => .ok (none, none)
  | some bytes => (W.tail bytes).map fun found => (found.1, some (bytes.take found.2))

/-- The last key of a period's file, from memory or from the file. -/
def previousKey (live : Live) (start : Int) (file : Option (List UInt8)) :
    Except FileError (Option ExportKey × Option (List UInt8)) :=
  match live.last.get start with
  | some last => .ok (last, file)
  | none => lastKeyOf W file

/-- The period is written; its range is done with. -/
def leave (live : Live) (start : Int) : Live := { live with working := live.working.erase start }

def remember (live : Live) (start : Int) (last : Option ExportKey) : Live :=
  { live with last := live.last.set start last }

/-- The records of a notified range. -/
def rangeRecords (key : ρ → ExportKey) (db : List ρ) (range : KeyRange) : List ρ :=
  (query key db ⟨some range.1.timestamp, some (range.2.timestamp + TICK)⟩).filter fun r =>
    range.1 ≤ key r ∧ key r ≤ range.2

/-- The records behind a key. -/
def behindKey (key : ρ → ExportKey) (last : Option ExportKey) (rs : List ρ) : List ρ :=
  rs.filter fun r => last.all fun k => decide (k < key r)

/-- Append the records behind the last key, and remember the new one. -/
def appendBehind (live : Live) (start : Int) (file : Option (List UInt8)) (rs : List ρ)
    (last : Option ExportKey) (cut : Option Nat) : Outcome :=
  match rs.getLast? with
  | none => ⟨file, live, false⟩
  | some newest =>
    match append W (file.getD []) rs cut with
    | (bytes, true) => ⟨some bytes, live, true⟩
    | (bytes, false) =>
      ⟨some bytes, remember live start (some (last.elim (key newest) (max · (key newest)))), false⟩

/-- `__write_period_live`, appending. -/
def wakePeriod (db : List ρ) (live : Live) (start : Int) (file : Option (List UInt8))
    (cut : Option Nat) : Outcome :=
  match live.working.get start with
  | none => ⟨file, live, true⟩
  | some range =>
    match rangeRecords key db range with
    | [] => ⟨file, live, false⟩
    | head :: rest =>
      match previousKey W live start file with
      | .error _ => ⟨file, live, true⟩
      | .ok (previous, file) =>
        if previous.any fun k => decide (key head ≤ k) then
          appendBehind W (live.warnLate start) start file (behindKey key previous (head :: rest))
            previous cut
        else appendBehind W live start file (head :: rest) previous cut

/-- `__resume`: a file without a readable end stays as it is. -/
def resume (period : ExporterPeriod) (db : List ρ) (live : Live) (start started : Int)
    (file : List UInt8) (cut : Option Nat) : Outcome :=
  match W.tail file with
  | .error .file => ⟨some file, live, false⟩
  | .error .value => ⟨some file, live, true⟩
  | .ok (last, length) =>
    let after := last.elim (bounds period start).after fun k => some k.timestamp
    let span := ExportSpan.through ⟨after, (bounds period start).before⟩ (some started)
    appendBehind W (remember live start last) start (some (file.take length))
      (behindKey key last (query key db span)) none cut

/-- One period of the check at the start: a missing file is written whole, another resumed. -/
def checkPeriod (period : ExporterPeriod) (db : List ρ) (live : Live) (start started : Int)
    (file : Option (List UInt8)) (cut : Option Nat) : Outcome :=
  match file with
  | none =>
    match query key db ((bounds period start).through (some started)) with
    | [] => ⟨none, live.own start, false⟩
    | head :: rest => ⟨some (W.content (head :: rest)), live.own start, false⟩
  | some bytes => resume W period db live start started bytes cut

/-! ## 2. The system -/

/-- What the live loop is doing: the periods it is through with and those still to come. -/
inductive Task where
  | idle
  | checking (started : Int) (done rest : List Int)
  | waking (done rest : List Int)

def Task.done : Task → List Int
  | .idle => []
  | .checking _ done _ => done
  | .waking done _ => done

structure Manager where
  live : Live
  task : Task

structure State (ρ : Type) where
  db : List ρ
  files : Dict Int (List UInt8)
  manager : Option Manager

def State.initial : State ρ := ⟨[], [], none⟩

inductive Action (ρ : Type) where
  /-- The writer stores records. -/
  | store (records : List ρ)
  /-- A flush notifies the exporter of keys, those of records it does not select among them. -/
  | notify (keys : List ExportKey)
  | stop
  | restart
  /-- The check at the start begins. -/
  | check (started : Int)
  | wake
  /-- The next period of the check or the wake; its append, if it makes one, raises after `cut`
      bytes. -/
  | period (cut : Option Nat)
  /-- The check or the wake has no more periods. -/
  | finish (now : Int)
  /-- The check or the wake raises between two periods. -/
  | fail
  /-- A run writes a period's file from the records of a range. -/
  | rewrite (start : Int) (span : ExportSpan)
  /-- A run removes a period's file. -/
  | remove (start : Int)

def setFile (files : Dict Int (List UInt8)) (start : Int) : Option (List UInt8) → Dict Int (List UInt8)
  | none => files
  | some bytes => files.set start bytes

/-- The manager after a period: a failure returns the ranges of the wake. -/
def Manager.settle (o : Outcome) (next : Live → Manager) : Manager :=
  if o.raised then ⟨o.live.restore, .idle⟩ else next o.live

/-- `__forget`: a run wrote the period's file, so its last key comes from the file again. -/
def forget (live : Live) (start : Int) : Live :=
  { live with
    last := live.last.erase start
    late := live.late.filter fun other => decide (other ≠ start) }

/-- No check and no wake holds the exporter's lock. -/
def State.free (s : State ρ) : Bool :=
  match s.manager with
  | some ⟨_, .checking _ _ _⟩ | some ⟨_, .waking _ _⟩ => false
  | _ => true

def State.forget (s : State ρ) (start : Int) : Option Manager :=
  s.manager.map fun m => { m with live := LineFile.forget m.live start }

def State.period (exporterPeriod : ExporterPeriod) (s : State ρ) (cut : Option Nat) :
    Option (State ρ) :=
  match s.manager with
  | some ⟨live, .checking started done (start :: rest)⟩ =>
    let o := checkPeriod W exporterPeriod s.db live start started (s.files.get start) cut
    some ⟨s.db, setFile s.files start o.file,
      some (.settle o fun live => ⟨live, .checking started (start :: done) rest⟩)⟩
  | some ⟨live, .waking done (start :: rest)⟩ =>
    let o := wakePeriod W s.db live start (s.files.get start) cut
    some ⟨s.db, setFile s.files start o.file,
      some (.settle o fun live => ⟨leave live start, .waking (start :: done) rest⟩)⟩
  | _ => none

/-- The newest record's timestamp. -/
def newest (key : ρ → ExportKey) (db : List ρ) : Option Int := (db.map fun r => (key r).timestamp).max?

/-- The check at the start takes the lock. -/
def State.check (exporterPeriod : ExporterPeriod) (s : State ρ) (key : ρ → ExportKey) (started : Int) :
    Option (State ρ) :=
  match s.manager with
  | some ⟨live, .idle⟩ =>
    if live.checked then none
    else
      let starts := checkedStarts exporterPeriod started (newest key s.db)
      some ⟨s.db, s.files, some ⟨live, .checking started [] starts⟩⟩
  | _ => none

/-- A wake takes the pending ranges and the lock. -/
def State.wake (s : State ρ) : Option (State ρ) :=
  match s.manager with
  | some ⟨live, .idle⟩ =>
    if live.checked ∧ live.pending ≠ [] then
      some ⟨s.db, s.files,
        some ⟨live.take, .waking [] (live.pending.keys.insertionSort (· ≤ ·))⟩⟩
    else none
  | _ => none

/-- The check or the wake is through with its periods. -/
def State.finish (exporterPeriod : ExporterPeriod) (s : State ρ) (now : Int) : Option (State ρ) :=
  match s.manager with
  | some ⟨live, .checking _ _ []⟩ => some ⟨s.db, s.files, some ⟨{ live with checked := true }, .idle⟩⟩
  | some ⟨live, .waking done []⟩ =>
    some ⟨s.db, s.files, some ⟨live.keep (periodStart exporterPeriod now :: done), .idle⟩⟩
  | _ => none

/-- A run writes a file. -/
def State.rewrite (s : State ρ) (start : Int) (span : ExportSpan) : Option (State ρ) :=
  match s.free, query key s.db span with
  | true, head :: rest => some ⟨s.db, s.files.set start (W.content (head :: rest)), s.forget start⟩
  | _, _ => none

def step (exporterPeriod : ExporterPeriod) (s : State ρ) : Action ρ → Option (State ρ)
  | .store records =>
    if ((s.db ++ records).map fun r => (key r).id).Nodup then some { s with db := s.db ++ records }
    else none
  | .notify keys =>
    some ⟨s.db, s.files, s.manager.map fun m => ⟨m.live.notify exporterPeriod keys, m.task⟩⟩
  | .stop => some ⟨s.db, s.files, none⟩
  | .restart => some ⟨s.db, s.files, some ⟨Live.fresh, .idle⟩⟩
  | .check started => s.check exporterPeriod key started
  | .wake => s.wake
  | .period cut => s.period W exporterPeriod cut
  | .finish now => s.finish exporterPeriod now
  | .fail => some ⟨s.db, s.files, s.manager.map fun m => ⟨m.live.restore, .idle⟩⟩
  | .rewrite start span => s.rewrite W start span
  | .remove start => if s.free then some ⟨s.db, s.files.erase start, s.forget start⟩ else none

/-! ## 3. Calm steps -/

/-- The file's complete records, the header among them, make up all of it. -/
def Whole (bytes : List UInt8) : Bool :=
  match W.tail bytes with
  | .ok (_, length) => length = bytes.length ∧ W.header.length ≤ bytes.length
  | .error _ => false

def wakeRecords (key : ρ → ExportKey) (db : List ρ) (live : Live) (start : Int) : List ρ :=
  match live.working.get start with
  | none => []
  | some range => rangeRecords key db range

/-- What `resume` would append. -/
def resumeRecords (period : ExporterPeriod) (db : List ρ) (start started : Int) (file : List UInt8) :
    List ρ :=
  match W.tail file with
  | .error _ => []
  | .ok (last, _) =>
    let after := last.elim (bounds period start).after fun k => some k.timestamp
    let span := ExportSpan.through ⟨after, (bounds period start).before⟩ (some started)
    behindKey key last (query key db span)

/-- A period after which no append follows a torn line. In a wake: if the append fails, it leaves
    bytes only while the period's last key is not in memory; and with nothing to write, the file is
    whole. In a check: with nothing to add, the file is no shorter than its header. -/
def CalmPeriod (exporterPeriod : ExporterPeriod) (s : State ρ) (cut : Option Nat) : Prop :=
  match s.manager with
  | some ⟨live, .waking _ (start :: _)⟩ =>
    (∀ n ∈ cut, n = 0 ∨ live.last.get start = none) ∧
      (wakeRecords key s.db live start = [] → ∀ f ∈ s.files.get start, Whole W f = true)
  | some ⟨_, .checking started _ (start :: _)⟩ =>
    ∀ f ∈ s.files.get start, resumeRecords W exporterPeriod s.db start started f = [] →
      W.header.length ≤ f.length
  | _ => True

instance (exporterPeriod : ExporterPeriod) (s : State ρ) (cut : Option Nat) :
    Decidable (CalmPeriod W exporterPeriod s cut) := by
  unfold CalmPeriod
  split <;> infer_instance

/-- The calm steps: calm periods, and checks that go through every period whose last key an earlier,
    failed check left in memory. -/
def Calm (exporterPeriod : ExporterPeriod) (s : State ρ) : Action ρ → Prop
  | .period cut => CalmPeriod W exporterPeriod s cut
  | .check started =>
    ∀ m ∈ s.manager, ∀ start ∈ m.live.last.keys,
      start ∈ checkedStarts exporterPeriod started (newest key s.db)
  | _ => True

instance (exporterPeriod : ExporterPeriod) (s : State ρ) (a : Action ρ) :
    Decidable (Calm W exporterPeriod s a) := by
  cases a <;> unfold Calm <;> infer_instance

/-! ## 4. Files in order -/

/-- The file of some records whose keys increase and end in `last`, or nothing at all. -/
def Clean (bytes : List UInt8) (last : Option ExportKey) : Prop :=
  ∃ rs, Increasing key rs ∧ (bytes = W.content rs ∨ bytes = [] ∧ rs = []) ∧ last = lastKey key rs

variable {W}

theorem clean_nil : Clean W [] none := ⟨[], List.Pairwise.nil, .inr ⟨rfl, rfl⟩, rfl⟩

variable {bytes : List UInt8}

theorem Clean.healable {last : Option ExportKey} (h : Clean W bytes last) : W.Healable bytes := by
  obtain ⟨rs, hrs, hbytes | ⟨hbytes, -⟩, -⟩ := h
  · exact ⟨rs, hrs, hbytes ▸ List.prefix_rfl⟩
  · exact ⟨[], List.Pairwise.nil, hbytes ▸ List.nil_prefix⟩

theorem Clean.ordered {last : Option ExportKey} (h : Clean W bytes last)
    (hlong : last.isSome ∨ W.header.length ≤ bytes.length) : W.Ordered bytes := by
  obtain ⟨rs, hrs, hbytes | ⟨hbytes, hnil⟩, hlast⟩ := h
  · exact ⟨rs, hrs, hbytes⟩
  · subst hnil
    rcases hlong with hsome | hlength
    · simp [hlast, lastKey] at hsome
    · have hheader : W.header = [] := by
        rw [hbytes, List.length_nil] at hlength
        exact List.length_eq_zero_iff.mp (Nat.le_zero.mp hlength)
      exact ⟨[], List.Pairwise.nil, by simp [content, hheader, hbytes]⟩

/-- **Reading the tail cleans a file.** -/
theorem tail_clean (h : W.Healable bytes) :
    ∃ last length, W.tail bytes = .ok (last, length) ∧ Clean W (bytes.take length) last := by
  obtain ⟨rs, length, hrs, htail, -, htake | ⟨htake, hnil, -⟩⟩ := W.tail_heals h
  · exact ⟨_, length, htail, rs, hrs, .inl htake, rfl⟩
  · exact ⟨_, length, htail, rs, hrs, .inr ⟨htake, hnil⟩, rfl⟩

theorem ordered_of_whole (h : W.Healable bytes) (hwhole : Whole W bytes = true) : W.Ordered bytes := by
  obtain ⟨last, length, htail, hclean⟩ := tail_clean h
  rw [Whole, htail, decide_eq_true_eq] at hwhole
  rw [hwhole.1, List.take_length] at hclean
  exact hclean.ordered (.inr hwhole.2)

/-- The records are behind the key. -/
def Behind (key : ρ → ExportKey) (last : Option ExportKey) (rs : List ρ) : Prop :=
  ∀ r ∈ rs, ∀ k ∈ last, k < key r

theorem increasing_append {old new : List ρ} (hold : Increasing key old) (hnew : Increasing key new)
    (hbehind : Behind key (lastKey key old) new) : Increasing key (old ++ new) := by
  refine List.pairwise_append.mpr ⟨hold, hnew, fun a ha b hb => ?_⟩
  cases hlast : old.getLast? with
  | none =>
    rw [List.getLast?_eq_none_iff] at hlast
    simp [hlast] at ha
  | some newest =>
    have hlt : key newest < key b := hbehind b hb (key newest) (by simp [lastKey, hlast])
    obtain ⟨front, hfront⟩ := List.getLast?_eq_some_iff.mp hlast
    rw [hfront, Increasing, List.pairwise_append] at hold
    rw [hfront, List.mem_append, List.mem_singleton] at ha
    rcases ha with ha | rfl
    · exact (hold.2.2 a ha newest List.mem_cons_self).trans hlt
    · exact hlt

/-- **What an append makes of a clean file**: whole, the file of more records in order. -/
theorem append_content {last : Option ExportKey} {rs : List ρ} (h : Clean W bytes last)
    (hrs : Increasing key rs) (hbehind : Behind key last rs) (hne : rs ≠ []) :
    ∃ all, Increasing key all ∧ bytes ++ appended W bytes rs = W.content all ∧
      lastKey key all = lastKey key rs := by
  obtain ⟨old, hold, hbytes, rfl⟩ := h
  refine ⟨old ++ rs, increasing_append hold hrs hbehind, ?_, ?_⟩
  · unfold appended content
    rcases hbytes with hbytes | ⟨hbytes, hnil⟩
    · by_cases hempty : bytes = []
      · have hzero : W.header = [] ∧ (old.map W.encode).flatten = [] := by
          rw [hempty, content] at hbytes
          exact List.append_eq_nil_iff.mp hbytes.symm
        rw [if_pos hempty, hempty, List.map_append, List.flatten_append, hzero.1, hzero.2]
      · rw [if_neg hempty, hbytes, content, List.map_append, List.flatten_append]
        simp
    · rw [if_pos hbytes, hbytes, hnil]
      rfl
  · rw [lastKey, lastKey, List.getLast?_append_of_ne_nil _ hne]

/-- Stored records come in the strict order of their keys, which differ. -/
theorem increasing_query {db : List ρ} (h : (db.map key).Nodup) (span : ExportSpan) :
    Increasing key (query key db span) := by
  have : Std.Total fun a b : ρ => key a ≤ key b := ⟨fun a b => le_total (key a) (key b)⟩
  have : IsTrans ρ fun a b => key a ≤ key b := ⟨fun a b c hab hbc => le_trans hab hbc⟩
  have hsorted := List.pairwise_insertionSort (fun a b => key a ≤ key b)
    (db.filter fun r => span.holds (key r).timestamp)
  have hfilter : ((db.filter fun r => span.holds (key r).timestamp).map key).Nodup :=
    (List.filter_sublist.map key).nodup h
  have hperm := (List.perm_insertionSort (fun a b => key a ≤ key b)
    (db.filter fun r => span.holds (key r).timestamp)).map key
  have hne := List.pairwise_map.mp (hperm.nodup_iff.mpr hfilter)
  exact (hsorted.and hne).imp fun hab => lt_of_le_of_ne hab.1 hab.2

theorem increasing_filter {rs : List ρ} (h : Increasing key rs) (p : ρ → Bool) :
    Increasing key (rs.filter p) := h.sublist List.filter_sublist

theorem behind_behindKey (last : Option ExportKey) (rs : List ρ) : Behind key last (behindKey key last rs) := by
  intro r hr k hk
  have hall := (List.mem_filter.mp hr).2
  rw [Option.mem_def.mp hk, Option.all_some] at hall
  exact of_decide_eq_true hall

theorem behind_of_head {previous : Option ExportKey} {head : ρ} {rest : List ρ}
    (hrs : Increasing key (head :: rest)) (hhead : (previous.any fun k => decide (key head ≤ k)) = false) :
    Behind key previous (head :: rest) := by
  intro r hr k hk
  rw [Option.mem_def.mp hk, Option.any_some, decide_eq_false_iff_not, not_le] at hhead
  rcases List.mem_cons.mp hr with rfl | hr
  · exact hhead
  · exact hhead.trans ((List.pairwise_cons.mp hrs).1 r hr)

/-! ## 5. One period -/

section Append

variable {live : Live} {start : Int} {file : Option (List UInt8)} {last hint : Option ExportKey}
  {rs : List ρ} {cut : Option Nat}

theorem appendBehind_done (h : Clean W (file.getD []) last) (hrs : Increasing key rs)
    (hbehind : Behind key last rs) (hhint : hint = none ∨ hint = last)
    (hdone : (appendBehind W live start file rs hint cut).raised = false) :
    (rs = [] ∧ appendBehind W live start file rs hint cut = ⟨file, live, false⟩) ∨
      ∃ bytes newest, appendBehind W live start file rs hint cut =
        ⟨some bytes, remember live start (some newest), false⟩ ∧ Clean W bytes (some newest) := by
  unfold appendBehind at *
  cases hnewest : rs.getLast? with
  | none => exact .inl ⟨List.getLast?_eq_none_iff.mp hnewest, rfl⟩
  | some newest =>
    have hne : rs ≠ [] := by
      rintro rfl
      simp at hnewest
    have hmem : newest ∈ rs := List.mem_of_getLast? hnewest
    have hkey : hint.elim (key newest) (max · (key newest)) = key newest := by
      rcases hhint with rfl | rfl
      · rfl
      · cases hint with
        | none => rfl
        | some k => exact max_eq_right (hbehind newest hmem k rfl).le
    cases cut with
    | some n => simp [hnewest, append] at hdone
    | none =>
      obtain ⟨all, hall, hcontent, hlast⟩ := append_content h hrs hbehind hne
      refine .inr ⟨file.getD [] ++ appended W (file.getD []) rs, key newest, ?_, all, hall,
        .inl hcontent, ?_⟩
      · simp only [append, hkey]
      · rw [hlast, lastKey, hnewest]
        rfl

theorem appendBehind_raised (h : Clean W (file.getD []) last) (hrs : Increasing key rs)
    (hbehind : Behind key last rs) (hraised : (appendBehind W live start file rs hint cut).raised = true) :
    ∃ n bytes, cut = some n ∧ appendBehind W live start file rs hint cut = ⟨some bytes, live, true⟩ ∧
      W.Healable bytes ∧ (n = 0 → bytes = file.getD []) := by
  unfold appendBehind at *
  cases hnewest : rs.getLast? with
  | none => simp [hnewest] at hraised
  | some newest =>
    have hne : rs ≠ [] := by
      rintro rfl
      simp at hnewest
    cases cut with
    | none => simp [hnewest, append] at hraised
    | some n =>
      obtain ⟨all, hall, hcontent, -⟩ := append_content h hrs hbehind hne
      refine ⟨n, file.getD [] ++ (appended W (file.getD []) rs).take n, rfl, rfl, ⟨all, hall, ?_⟩, ?_⟩
      · rw [← hcontent]
        exact (List.prefix_append_right_inj _).mpr (List.take_prefix n _)
      · rintro rfl
        simp

end Append

@[simp] theorem get_remember (live : Live) (start : Int) (last : Option ExportKey) (other : Int) :
    (remember live start last).last.get other = if start = other then some last else live.last.get other :=
  Dict.get_set live.last start last other

/-- What a period leaves: its file the start of a file in order, in order when the period is done
    with; a last key in memory that belongs to the file, unless a check raised; other periods as they
    were. -/
structure PeriodSpec (W : LineWriter key) (live : Live) (start : Int) (file : Option (List UInt8))
    (o : Outcome) : Prop where
  healable : ∀ f ∈ o.file, W.Healable f
  ordered : o.raised = false → ∀ f ∈ o.file, W.Ordered f
  known : o.raised = false ∨ live.checked = true →
    ∀ v ∈ o.live.last.get start, ∃ f, o.file = some f ∧ Clean W f v
  existing : ∀ v ∈ o.live.last.get start, o.file ≠ none
  frame : ∀ other, other ≠ start → o.live.last.get other = live.last.get other
  checked : o.live.checked = live.checked
  missing : o.file = none → file = none

/-- What is known of a period's file before it is done. -/
structure FileInv (W : LineWriter key) (live : Live) (start : Int) (file : Option (List UInt8)) : Prop where
  healable : ∀ f ∈ file, W.Healable f
  known : live.checked = true → ∀ v ∈ live.last.get start, ∃ f, file = some f ∧ Clean W f v
  existing : ∀ v ∈ live.last.get start, file ≠ none

theorem previousKey_clean {live : Live} {start : Int} {file : Option (List UInt8)}
    (h : FileInv W live start file) (hchecked : live.checked = true) :
    ∃ previous file', previousKey W live start file = .ok (previous, file') ∧
      Clean W (file'.getD []) previous ∧ (file' = none → file = none) ∧
      (live.last.get start ≠ none → file' = file) := by
  unfold previousKey
  cases hlast : live.last.get start with
  | some last =>
    obtain ⟨f, hfile, hclean⟩ := h.known hchecked last hlast
    exact ⟨last, file, rfl, by rw [hfile]; exact hclean, id, fun _ => rfl⟩
  | none =>
    cases file with
    | none => exact ⟨none, none, rfl, clean_nil, id, fun hne => absurd rfl hne⟩
    | some f =>
      obtain ⟨last, length, htail, hclean⟩ := tail_clean (h.healable f rfl)
      refine ⟨last, some (f.take length), ?_, hclean, by simp, fun hne => absurd rfl hne⟩
      simp [lastKeyOf, htail, Except.map]

/-- **The append of a period**, to a clean file whose last key is the one in memory if there is one
    in memory. -/
theorem appendBehind_spec {live live' : Live} {start : Int} {file file' : Option (List UInt8)}
    {last hint : Option ExportKey} {rs : List ρ} {cut : Option Nat}
    (hclean : Clean W (file'.getD []) last) (hrs : Increasing key rs) (hbehind : Behind key last rs)
    (hhint : hint = none ∨ hint = last) (hmissing : file' = none → file = none)
    (hknown : ∀ v ∈ live'.last.get start, ∃ f, file' = some f ∧ Clean W f v)
    (hframe : ∀ other, other ≠ start → live'.last.get other = live.last.get other)
    (hchecked : live'.checked = live.checked)
    (hcut : live.checked = true → ∀ n ∈ cut, n = 0 ∨ live'.last.get start = none)
    (hordered : rs = [] → ∀ f ∈ file', W.Ordered f) :
    PeriodSpec W live start file (appendBehind W live' start file' rs hint cut) := by
  cases hraised : (appendBehind W live' start file' rs hint cut).raised with
  | false =>
    rcases appendBehind_done hclean hrs hbehind hhint hraised with ⟨hnil, ho⟩ | ⟨bytes, newest, ho, hbytes⟩
    · rw [ho]
      refine ⟨?_, fun _ => hordered hnil, fun _ => hknown, ?_, hframe, hchecked, hmissing⟩
      · intro f hf
        have hfile : file' = some f := hf
        rw [hfile] at hclean
        exact hclean.healable
      · intro v hv
        obtain ⟨f, hf, -⟩ := hknown v hv
        simp [hf]
    · rw [ho]
      refine ⟨?_, ?_, ?_, by simp, ?_, hchecked, by simp⟩
      · intro g hg
        obtain rfl := Option.some.inj hg
        exact hbytes.healable
      · intro _ g hg
        obtain rfl := Option.some.inj hg
        exact hbytes.ordered (.inl rfl)
      · intro _ v hv
        rw [get_remember, if_pos rfl, Option.mem_def, Option.some.injEq] at hv
        exact ⟨bytes, rfl, hv ▸ hbytes⟩
      · intro other hother
        rw [get_remember, if_neg (Ne.symm hother)]
        exact hframe other hother
  | true =>
    obtain ⟨n, bytes, rfl, ho, hheal, hzero⟩ := appendBehind_raised hclean hrs hbehind hraised
    rw [ho]
    refine ⟨?_, by simp, ?_, by simp, hframe, hchecked, by simp⟩
    · intro g hg
      obtain rfl := Option.some.inj hg
      exact hheal
    · -- bytes may have reached the file only if no last key is in memory
      rintro (hfalse | hwake) v hv
      · exact absurd hfalse (by simp)
      · obtain ⟨f, hf, hcleanV⟩ := hknown v hv
        rcases hcut hwake n rfl with hn | hnone
        · exact ⟨bytes, rfl, by rw [hzero hn, hf]; exact hcleanV⟩
        · exact absurd (Option.mem_def.mp hv) (by simp [hnone])

theorem Clean.ordered_of_key {file : Option (List UInt8)} {k : ExportKey}
    (h : Clean W (file.getD []) (some k)) : ∀ f ∈ file, W.Ordered f := by
  intro f hf
  rw [Option.mem_def.mp hf] at h
  exact h.ordered (.inl rfl)

/-- **A period of a wake.** -/
theorem wakePeriod_spec {db : List ρ} {live : Live} {start : Int} {file : Option (List UInt8)}
    {cut : Option Nat} (hdb : (db.map key).Nodup) (h : FileInv W live start file)
    (hchecked : live.checked = true) (hcut : ∀ n ∈ cut, n = 0 ∨ live.last.get start = none)
    (hwhole : wakeRecords key db live start = [] → ∀ f ∈ file, Whole W f = true) :
    PeriodSpec W live start file (wakePeriod W db live start file cut) := by
  have hsame : ∀ raised, (raised = false → ∀ f ∈ file, W.Ordered f) →
      PeriodSpec W live start file ⟨file, live, raised⟩ := fun raised hordered =>
    ⟨h.healable, hordered, fun _ => h.known hchecked, h.existing, fun _ _ => rfl, rfl, id⟩
  unfold wakePeriod
  unfold wakeRecords at hwhole
  cases hrange : live.working.get start with
  | none => exact hsame true (by simp)
  | some range =>
    have hrs : Increasing key (rangeRecords key db range) := increasing_filter (increasing_query hdb _) _
    rw [hrange] at hwhole
    simp only at hwhole ⊢
    cases hrecords : rangeRecords key db range with
    | nil =>
      refine hsame false fun _ f hf => ?_
      exact ordered_of_whole (h.healable f hf) (hwhole hrecords f hf)
    | cons head rest =>
      rw [hrecords] at hrs
      obtain ⟨previous, file', hprevious, hclean, hmissing, hmemory⟩ := previousKey_clean h hchecked
      have hknown : ∀ v ∈ live.last.get start, ∃ f, file' = some f ∧ Clean W f v := by
        intro v hv
        rw [hmemory (by simp [Option.mem_def.mp hv])]
        exact h.known hchecked v hv
      rw [hprevious]
      simp only
      split
      · rename_i hlate
        refine appendBehind_spec hclean (increasing_filter hrs _) (behind_behindKey _ _) (.inr rfl) hmissing
          (by simpa using hknown) (by simp) (by simp) (fun _ => by simpa using hcut) fun _ => ?_
        cases previous with
        | none => simp at hlate
        | some k => exact hclean.ordered_of_key
      · rename_i hnew
        exact appendBehind_spec hclean hrs (behind_of_head hrs (by simpa using hnew)) (.inr rfl) hmissing
          hknown (fun _ _ => rfl) rfl (fun _ => hcut) (by simp)

/-- **A period of the check at the start.** -/
theorem checkPeriod_spec {period : ExporterPeriod} {db : List ρ} {live : Live} {start started : Int}
    {file : Option (List UInt8)} {cut : Option Nat} (hdb : (db.map key).Nodup)
    (h : FileInv W live start file) (hchecked : live.checked = false)
    (hlong : ∀ f ∈ file, resumeRecords W period db start started f = [] → W.header.length ≤ f.length) :
    PeriodSpec W live start file (checkPeriod W period db live start started file cut) := by
  unfold checkPeriod
  cases file with
  | none =>
    have hnone : ∀ v ∈ live.last.get start, False := fun v hv => h.existing v hv rfl
    cases hrecords : query key db ((bounds period start).through (some started)) with
    | nil =>
      exact ⟨by simp, by simp, fun _ v hv => (hnone v (by simpa using hv)).elim,
        fun v hv => (hnone v (by simpa using hv)).elim, by simp, by simp, by simp⟩
    | cons head rest =>
      have hrs := increasing_query hdb ((bounds period start).through (some started))
      rw [hrecords] at hrs
      have hfile : W.Ordered (W.content (head :: rest)) := ⟨_, hrs, rfl⟩
      refine ⟨?_, ?_, fun _ v hv => (hnone v (by simpa using hv)).elim,
        fun v hv => (hnone v (by simpa using hv)).elim, by simp, by simp, by simp⟩
      · intro f hf
        obtain rfl := Option.some.inj hf
        exact Ordered.healable W hfile
      · intro _ f hf
        obtain rfl := Option.some.inj hf
        exact hfile
  | some bytes =>
    obtain ⟨last, length, htail, hclean⟩ := tail_clean (h.healable bytes rfl)
    have hrecords := hlong bytes rfl
    unfold resumeRecords at hrecords
    simp only [resume, htail] at hrecords ⊢
    refine appendBehind_spec hclean (increasing_filter (increasing_query hdb _) _) (behind_behindKey _ _)
      (.inl rfl) (by simp) ?_ ?_ rfl (by simp [hchecked]) fun hnil f hf => ?_
    · intro v hv
      rw [get_remember, if_pos rfl, Option.mem_def, Option.some.injEq] at hv
      exact ⟨_, rfl, hv ▸ hclean⟩
    · intro other hother
      rw [get_remember, if_neg (Ne.symm hother)]
    · -- the cut file is no shorter than the header, since the whole one is not
      obtain rfl := Option.some.inj hf
      have hheader := hrecords hnil
      obtain ⟨rs, length', hrs, htail', -, htake | ⟨-, -, hshort⟩⟩ := W.tail_heals (h.healable bytes rfl)
      · rw [htail] at htail'
        obtain ⟨-, rfl⟩ := Prod.mk.inj (Except.ok.inj htail')
        exact ⟨rs, hrs, htake⟩
      · omega

/-! ## 6. Runs -/

/-- The manager relies on the last key it has in memory of the period. -/
def Trusts (m : Manager) (start : Int) : Prop := m.live.checked = true ∨ start ∈ m.task.done

/-- A check at work is the first one to finish, and goes through every period in memory. -/
def Task.Fits (live : Live) : Task → Prop
  | .idle => True
  | .checking _ done rest => live.checked = false ∧
      ∀ start v, live.last.get start = some v → start ∈ done ∨ start ∈ rest
  | .waking _ _ => live.checked = true

/-- The invariant. -/
structure Inv (W : LineWriter key) (s : State ρ) : Prop where
  nodup : (s.db.map key).Nodup
  healable : ∀ start f, s.files.get start = some f → W.Healable f
  existing : ∀ m ∈ s.manager, ∀ start v, m.live.last.get start = some v → s.files.get start ≠ none
  known : ∀ m ∈ s.manager, ∀ start v, Trusts m start → m.live.last.get start = some v →
    ∃ f, s.files.get start = some f ∧ Clean W f v
  fits : ∀ m ∈ s.manager, m.task.Fits m.live
  ordered : ∀ m ∈ s.manager, ∀ start ∈ m.task.done, ∀ f, s.files.get start = some f → W.Ordered f

theorem inv_initial : Inv W (State.initial : State ρ) := by
  refine ⟨by simp [State.initial], ?_, ?_, ?_, ?_, ?_⟩ <;> simp [State.initial]

theorem nodup_keys {db : List ρ} (h : (db.map fun r => (key r).id).Nodup) : (db.map key).Nodup := by
  have hmap : (db.map fun r => (key r).id) = (db.map key).map ExportKey.id := by
    rw [List.map_map]
    rfl
  rw [hmap] at h
  exact List.Nodup.of_map _ h

variable {s : State ρ}

theorem Inv.manager {m m' : Manager} (h : Inv W s) (hm : s.manager = some m)
    (hlast : ∀ start v, m'.live.last.get start = some v → m.live.last.get start = some v)
    (htrusts : ∀ start v, m'.live.last.get start = some v → Trusts m' start → Trusts m start)
    (hfits : m'.task.Fits m'.live) (hdone : ∀ start ∈ m'.task.done, start ∈ m.task.done) :
    Inv W ⟨s.db, s.files, some m'⟩ := by
  refine ⟨h.nodup, h.healable, ?_, ?_, ?_, ?_⟩
  · intro m₁ hm₁ start v hv
    obtain rfl := Option.some.inj hm₁
    exact h.existing m hm start v (hlast start v hv)
  · intro m₁ hm₁ start v htrust hv
    obtain rfl := Option.some.inj hm₁
    exact h.known m hm start v (htrusts start v hv htrust) (hlast start v hv)
  · intro m₁ hm₁
    obtain rfl := Option.some.inj hm₁
    exact hfits
  · intro m₁ hm₁ start hstart
    obtain rfl := Option.some.inj hm₁
    exact h.ordered m hm start (hdone start hstart)

theorem Inv.without (h : Inv W s) : Inv W ⟨s.db, s.files, none⟩ :=
  ⟨h.nodup, h.healable, by simp, by simp, by simp, by simp⟩

theorem Inv.file {m : Manager} (h : Inv W s) (hm : s.manager = some m) (start : Int) :
    FileInv W m.live start (s.files.get start) :=
  ⟨fun f hf => h.healable start f hf, fun hchecked v hv => h.known m hm start v (.inl hchecked) hv,
    fun v hv => h.existing m hm start v hv⟩

theorem get_setFile {files : Dict Int (List UInt8)} {start : Int} {file : Option (List UInt8)}
    (h : file = none → files.get start = none) (other : Int) :
    (setFile files start file).get other = if start = other then file else files.get other := by
  cases file with
  | none =>
    by_cases hother : start = other
    · rw [if_pos hother, ← hother]
      exact h rfl
    · rw [if_neg hother]
      rfl
  | some bytes => exact Dict.get_set files start bytes other

/-- **A period keeps the invariant**, whatever the manager goes on to. -/
theorem Inv.settle {m : Manager} {start : Int} {o : Outcome} {next : Manager} (h : Inv W s)
    (hm : s.manager = some m) (hspec : PeriodSpec W m.live start (s.files.get start) o)
    (hnext : o.raised = false → next.live.last = o.live.last ∧ next.task.done = start :: m.task.done)
    (hraised : o.raised = true → next.live.last = o.live.last ∧ next.task.done = [] ∧ (Trusts next start →
      m.live.checked = true))
    (htrusts : ∀ other, Trusts next other → other = start ∨ Trusts m other) (hfits : next.task.Fits next.live) :
    Inv W ⟨s.db, setFile s.files start o.file, some next⟩ := by
  have hget := fun other => get_setFile hspec.missing other
  have hlast : next.live.last = o.live.last := by
    cases hr : o.raised with
    | false => exact (hnext hr).1
    | true => exact (hraised hr).1
  refine ⟨h.nodup, ?_, ?_, ?_, ?_, ?_⟩
  · intro other f hf
    rw [hget] at hf
    by_cases hother : start = other
    · rw [if_pos hother] at hf
      exact hspec.healable f hf
    · rw [if_neg hother] at hf
      exact h.healable other f hf
  · intro m₁ hm₁ other v hv
    obtain rfl := Option.some.inj hm₁
    rw [hlast] at hv
    rw [hget]
    by_cases hother : start = other
    · subst hother
      rw [if_pos rfl]
      exact hspec.existing v hv
    · rw [if_neg hother]
      rw [hspec.frame other (Ne.symm hother)] at hv
      exact h.existing m hm other v hv
  · intro m₁ hm₁ other v htrust hv
    obtain rfl := Option.some.inj hm₁
    rw [hlast] at hv
    rw [hget]
    by_cases hother : start = other
    · subst hother
      rw [if_pos rfl]
      refine hspec.known ?_ v hv
      cases hr : o.raised with
      | false => exact .inl rfl
      | true => exact .inr ((hraised hr).2.2 htrust)
    · rw [if_neg hother]
      rw [hspec.frame other (Ne.symm hother)] at hv
      exact h.known m hm other v ((htrusts other htrust).resolve_left (Ne.symm hother)) hv
  · intro m₁ hm₁
    obtain rfl := Option.some.inj hm₁
    exact hfits
  · intro m₁ hm₁ other hother f hf
    obtain rfl := Option.some.inj hm₁
    rw [hget] at hf
    cases hr : o.raised with
    | true =>
      rw [(hraised hr).2.1] at hother
      exact absurd hother List.not_mem_nil
    | false =>
      rw [(hnext hr).2] at hother
      by_cases hstart : start = other
      · rw [if_pos hstart] at hf
        exact hspec.ordered hr f hf
      · rw [if_neg hstart] at hf
        exact h.ordered m hm other ((List.mem_cons.mp hother).resolve_left (Ne.symm hstart)) f hf

theorem period_inv {exporterPeriod : ExporterPeriod} {s s' : State ρ} {cut : Option Nat}
    (h : Inv W s) (hcalm : CalmPeriod W exporterPeriod s cut)
    (hstep : s.period W exporterPeriod cut = some s') : Inv W s' := by
  unfold State.period at hstep
  unfold CalmPeriod at hcalm
  split at hstep
  · rename_i live started done start rest hm
    rw [hm] at hcalm
    obtain ⟨hchecked, hcovered⟩ := h.fits _ hm
    have hspec : PeriodSpec W live start (s.files.get start)
        (checkPeriod W exporterPeriod s.db live start started (s.files.get start) cut) :=
      checkPeriod_spec h.nodup (h.file hm start) hchecked hcalm
    obtain rfl := Option.some.inj hstep
    generalize checkPeriod W exporterPeriod s.db live start started (s.files.get start) cut = o at hspec
    refine h.settle hm hspec ?_ ?_ ?_ ?_
    · intro hr
      simp [Manager.settle, hr, Task.done]
    · intro hr
      simp [Manager.settle, hr, Task.done, Trusts, Live.restore, hspec.checked]
    · intro other htrust
      cases hr : o.raised with
      | true =>
        have hfalse : o.live.checked = true := by
          simpa [Manager.settle, hr, Trusts, Task.done, Live.restore] using htrust
        rw [hspec.checked] at hfalse
        exact .inr (.inl hfalse)
      | false =>
        rw [Manager.settle, hr] at htrust
        rcases htrust with htrue | hmem
        · exact .inr (.inl (hspec.checked ▸ htrue))
        · rcases List.mem_cons.mp hmem with heq | hmem
          · exact .inl heq
          · exact .inr (.inr hmem)
    · cases hr : o.raised with
      | true =>
        rw [Manager.settle, hr]
        exact trivial
      | false =>
        rw [Manager.settle, hr]
        refine ⟨hspec.checked.trans hchecked, fun other v hv => ?_⟩
        by_cases hother : other = start
        · exact .inl (List.mem_cons.mpr (.inl hother))
        · have hold : live.last.get other = some v := (hspec.frame other hother).symm.trans hv
          rcases hcovered other v hold with hdone | hrest
          · exact .inl (List.mem_cons_of_mem _ hdone)
          · exact .inr ((List.mem_cons.mp hrest).resolve_left hother)
  · rename_i live done start rest hm
    rw [hm] at hcalm
    have hchecked : live.checked = true := h.fits _ hm
    have hspec : PeriodSpec W live start (s.files.get start)
        (wakePeriod W s.db live start (s.files.get start) cut) :=
      wakePeriod_spec h.nodup (h.file hm start) hchecked hcalm.1 hcalm.2
    obtain rfl := Option.some.inj hstep
    generalize wakePeriod W s.db live start (s.files.get start) cut = o at hspec
    refine h.settle hm hspec ?_ ?_ (fun _ _ => .inr (.inl hchecked)) ?_
    · intro hr
      simp [Manager.settle, hr, Task.done, leave]
    · intro hr
      simp [Manager.settle, hr, Task.done, Live.restore, hchecked]
    · cases hr : o.raised with
      | true =>
        rw [Manager.settle, hr]
        exact trivial
      | false =>
        rw [Manager.settle, hr]
        exact hspec.checked.trans hchecked
  · simp at hstep

/-- A run writes or removes a file while no check and no wake holds the lock; the last key of it is
    forgotten. -/
theorem Inv.forget {start : Int} {files : Dict Int (List UInt8)} (h : Inv W s) (hfree : s.free = true)
    (hother : ∀ other, other ≠ start → files.get other = s.files.get other)
    (hstart : ∀ f, files.get start = some f → W.Healable f) : Inv W ⟨s.db, files, s.forget start⟩ := by
  have hget : ∀ (live : Live) (other : Int) (v : Option ExportKey),
      (LineFile.forget live start).last.get other = some v →
        other ≠ start ∧ live.last.get other = some v := by
    intro live other v hv
    rw [LineFile.forget, Dict.get_erase] at hv
    by_cases heq : start = other
    · rw [if_pos heq] at hv
      exact absurd hv (by simp)
    · rw [if_neg heq] at hv
      exact ⟨Ne.symm heq, hv⟩
  have hidle : ∀ m ∈ s.manager, m.task = .idle := by
    intro m hm
    obtain ⟨live, task⟩ := m
    cases task with
    | idle => rfl
    | checking started done rest =>
      rw [State.free, Option.mem_def.mp hm] at hfree
      exact absurd hfree (by simp)
    | waking done rest =>
      rw [State.free, Option.mem_def.mp hm] at hfree
      exact absurd hfree (by simp)
  refine ⟨h.nodup, ?_, ?_, ?_, ?_, ?_⟩
  · intro other f hf
    by_cases heq : other = start
    · exact hstart f (heq ▸ hf)
    · exact h.healable other f (hother other heq ▸ hf)
  · intro m₁ hm₁ other v hv
    obtain ⟨m, hm, rfl⟩ := Option.map_eq_some_iff.mp hm₁
    obtain ⟨hne, hv⟩ := hget m.live other v hv
    simp only [hother other hne]
    exact h.existing m hm other v hv
  · intro m₁ hm₁ other v htrust hv
    obtain ⟨m, hm, rfl⟩ := Option.map_eq_some_iff.mp hm₁
    obtain ⟨hne, hv⟩ := hget m.live other v hv
    simp only [hother other hne]
    exact h.known m hm other v htrust hv
  · intro m₁ hm₁
    obtain ⟨m, hm, rfl⟩ := Option.map_eq_some_iff.mp hm₁
    simp only [hidle m hm]
    exact trivial
  · intro m₁ hm₁ other hmem
    obtain ⟨m, hm, rfl⟩ := Option.map_eq_some_iff.mp hm₁
    simp only [hidle m hm] at hmem
    exact absurd hmem List.not_mem_nil

/-- **A calm step keeps the invariant.** -/
theorem step_inv {exporterPeriod : ExporterPeriod} {s s' : State ρ} {a : Action ρ} (h : Inv W s)
    (hcalm : Calm W exporterPeriod s a) (hstep : step W exporterPeriod s a = some s') : Inv W s' := by
  cases a with
  | store records =>
    rw [step] at hstep
    split at hstep
    · rename_i hids
      obtain rfl := Option.some.inj hstep
      exact ⟨nodup_keys hids, h.healable, h.existing, h.known, h.fits, h.ordered⟩
    · simp at hstep
  | notify keys =>
    obtain rfl := Option.some.inj hstep
    cases hm : s.manager with
    | none => exact h.without
    | some m =>
      refine h.manager hm (fun _ _ hv => hv) (fun _ _ _ htrust => htrust) ?_ (fun _ hstart => hstart)
      have hfits := h.fits m hm
      cases htask : m.task <;> rw [htask] at hfits <;> exact hfits
  | stop =>
    obtain rfl := Option.some.inj hstep
    exact h.without
  | restart =>
    obtain rfl := Option.some.inj hstep
    refine ⟨h.nodup, h.healable, ?_, ?_, ?_, ?_⟩ <;>
      simp [Live.fresh, Task.Fits, Task.done]
  | check started =>
    rw [step, State.check] at hstep
    split at hstep
    · rename_i live hm
      split at hstep
      · simp at hstep
      · rename_i hchecked
        obtain rfl := Option.some.inj hstep
        have hfalse : live.checked = false := by simpa using hchecked
        refine h.manager hm (fun _ _ hv => hv) ?_ ⟨hfalse, ?_⟩ (by simp [Task.done])
        · rintro start v - (htrue | hmem)
          · exact .inl htrue
          · exact absurd hmem List.not_mem_nil
        · intro start v hv
          have hkey : start ∈ live.last.keys := List.mem_map_of_mem (f := Prod.fst) (Dict.mem_of_get hv)
          exact .inr (hcalm _ hm start hkey)
    · simp at hstep
  | wake =>
    rw [step, State.wake] at hstep
    split at hstep
    · rename_i live hm
      split at hstep
      · rename_i hready
        obtain rfl := Option.some.inj hstep
        exact h.manager hm (fun _ _ hv => hv) (fun _ _ _ _ => .inl hready.1) hready.1
          (by simp [Task.done])
      · simp at hstep
    · simp at hstep
  | period cut => exact period_inv h hcalm hstep
  | finish now =>
    rw [step, State.finish] at hstep
    split at hstep
    · rename_i live started done hm
      obtain rfl := Option.some.inj hstep
      obtain ⟨-, hcovered⟩ := h.fits _ hm
      refine h.manager hm (fun _ _ hv => hv) (fun start v hv _ => .inr ?_) trivial (by simp [Task.done])
      exact (hcovered start v hv).resolve_right List.not_mem_nil
    · rename_i live done hm
      obtain rfl := Option.some.inj hstep
      have hchecked : live.checked = true := h.fits _ hm
      refine h.manager hm ?_ (fun _ _ _ _ => .inl hchecked) trivial (by simp [Task.done])
      intro start v hv
      rw [Live.keep, Dict.get_filter live.last (fun other => decide (other ∈ _))] at hv
      split at hv
      · exact hv
      · simp at hv
    · simp at hstep
  | fail =>
    obtain rfl := Option.some.inj hstep
    cases hm : s.manager with
    | none => exact h.without
    | some m =>
      refine h.manager hm (fun _ _ hv => hv) ?_ trivial (by simp [Task.done])
      rintro start v - (htrue | hmem)
      · exact .inl htrue
      · exact absurd hmem List.not_mem_nil
  | rewrite start span =>
    rw [step, State.rewrite] at hstep
    split at hstep
    · rename_i head rest hfree hrecords
      obtain rfl := Option.some.inj hstep
      refine h.forget hfree ?_ ?_
      · intro other hne
        rw [Dict.get_set, if_neg (Ne.symm hne)]
      · intro f hf
        rw [Dict.get_set, if_pos rfl, Option.some.injEq] at hf
        have hrs := increasing_query h.nodup span
        rw [hrecords] at hrs
        exact ⟨_, hrs, hf ▸ List.prefix_rfl⟩
    · simp at hstep
  | remove start =>
    rw [step] at hstep
    split at hstep
    · rename_i hfree
      obtain rfl := Option.some.inj hstep
      refine h.forget hfree ?_ ?_
      · intro other hne
        rw [Dict.get_erase, if_neg (Ne.symm hne)]
      · intro f hf
        rw [Dict.get_erase, if_pos rfl] at hf
        exact absurd hf (by simp)
    · simp at hstep

/-- **Live line files stay in order.** Along calm steps, in every state reached, the file of each
    period that the wake or the check at work is through with is the header and whole lines whose keys
    strictly increase. -/
theorem lines_stay_in_order (W : LineWriter key) (exporterPeriod : ExporterPeriod)
    (actions : List (Action ρ)) (s : State ρ)
    (hcalm : Along (step W exporterPeriod) (Calm W exporterPeriod) State.initial actions)
    (hrun : run (step W exporterPeriod) State.initial actions = some s) :
    ∀ m ∈ s.manager, ∀ start ∈ m.task.done, ∀ f ∈ s.files.get start, W.Ordered f := by
  have hinv := run_inv (fun _ _ _ h hcalm hstep => step_inv h hcalm hstep) actions _ s inv_initial
    hcalm hrun
  intro m hm start hstart f hf
  exact hinv.ordered m hm start hstart f hf

/-- The key of a record that is the number of microseconds since the epoch. -/
def earlyKey (n : Fin 4) : ExportKey := ⟨n.val, BitVec.ofNat 128 n.val⟩

/-- CSV with a header and no other columns. -/
def earlyWriter : LineWriter earlyKey :=
  csvWriter earlyKey (by decide) (fun _ => []) true [] fun _ => []

/-- The append that creates the file fails behind its header, inside the first line; the exporter
    starts again and resumes it, and two more records come in the wrong order. -/
def tornThenResumed : List (Action (Fin 4)) :=
  [.restart, .check 1, .period none, .period none, .finish 1, .store [0], .notify [earlyKey 0], .wake,
    .period (some 20), .restart, .check 1, .period none, .period none, .finish 1, .store [2, 1],
    .notify [earlyKey 2, earlyKey 1], .wake, .period none]

theorem lines_stay_in_order_tornThenResumed :
    ∃ s m f, run (step earlyWriter .hour) State.initial tornThenResumed = some s ∧
      s.manager = some m ∧ 0 ∈ m.task.done ∧ s.files.get 0 = some f ∧
      f = earlyWriter.content [0, 1, 2] ∧ earlyWriter.Ordered f := by
  have hcalm : Along (step earlyWriter .hour) (Calm earlyWriter .hour) State.initial tornThenResumed := by
    decide
  have hseen : (run (step earlyWriter .hour) State.initial tornThenResumed).map
      (fun s => (s.manager.map fun m => m.task.done, s.files.get 0)) =
      some (some [0], some (earlyWriter.content [0, 1, 2])) := by decide +kernel
  obtain ⟨s, hrun, hs⟩ := Option.map_eq_some_iff.mp hseen
  obtain ⟨hdone, hfile⟩ := Prod.mk.inj hs
  obtain ⟨m, hm, hmdone⟩ := Option.map_eq_some_iff.mp hdone
  have hmem : (0 : Int) ∈ m.task.done := by
    rw [hmdone]
    decide
  exact ⟨s, m, _, hrun, hm, hmem, hfile, rfl,
    lines_stay_in_order earlyWriter .hour tornThenResumed s hcalm hrun m hm 0 hmem _ hfile⟩

/-- The append of the second record fails after five bytes while the last key is in memory, and the
    next wake appends the record again behind them. -/
def tornInMemory : List (Action (Fin 4)) :=
  [.restart, .check 1, .period none, .period none, .finish 1, .store [0, 1], .notify [earlyKey 0],
    .wake, .period none, .finish 1, .notify [earlyKey 1], .wake, .period (some 5), .wake, .period none]

theorem torn_append_repeats :
    ¬ ∀ (actions : List (Action (Fin 4))) (s : State (Fin 4)),
      run (step earlyWriter .hour) State.initial actions = some s →
        ∀ m ∈ s.manager, ∀ start ∈ m.task.done, ∀ f ∈ s.files.get start, earlyWriter.Ordered f := by
  intro h
  have hseen : (run (step earlyWriter .hour) State.initial tornInMemory).map
      (fun s => (s.manager.map fun m => m.task.done,
        (s.files.get 0).map fun f => (earlyWriter.lines f).isOk)) =
      some (some [0], some false) := by decide
  obtain ⟨s, hrun, hs⟩ := Option.map_eq_some_iff.mp hseen
  obtain ⟨hdone, hfile⟩ := Prod.mk.inj hs
  obtain ⟨m, hm, hmdone⟩ := Option.map_eq_some_iff.mp hdone
  obtain ⟨f, hf, hlines⟩ := Option.map_eq_some_iff.mp hfile
  obtain ⟨rs, -, hcontent⟩ := h tornInMemory s hrun m hm 0 (by rw [hmdone]; decide) f hf
  have hread := @LineWriter.lines_content _ _ earlyWriter rs [] rfl
  rw [List.append_nil, ← hcontent] at hread
  rw [hread] at hlines
  exact absurd hlines (by simp [Except.isOk, Except.toBool])

end Ceres.Exporter.LineFile
