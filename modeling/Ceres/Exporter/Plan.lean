/-
  File:      Ceres/Exporter/Plan.lean
  Subject:   A DRY RUN AND THE RUN (`exporter.py`: `ExporterManager.plan`, `start`, `check_conflicts`,
             `__export`, `__export_file`).

  `plan` counts what each file would take and decides about it; a run streams the records, decides again
  and writes. The plan looks at the disk as it is before the run, the run as its own files leave it.

  * `ExporterManager.plan`, `ExporterManager.start` -- the two, with what both read;
  * `planFiles_foreseen` -- what a plan decides with the records it counts;
  * `planned` -- the action the plan decides on; `exportFiles_planned` -- the run performs just these where
    no file's place is changed before its turn;
  * `exportFiles_clash` -- and not where one is;
  * **`plan_predicts_iff`** -- the plan predicts the run exactly if no file is created or removed at the
    place of a later one;
  * `second_hour_kept` -- two periods with one file.
-/
import Ceres.Exporter.Path

namespace Ceres.Exporter.Plan

open Ceres.Library Ceres.Database Ceres.Paths

/-! ## 1. What both read -/

/-- The files of a mount, with the records each holds. -/
abbrev Disk (π ρ : Type) : Type := π → Option (List ρ)

abbrev File : Type := ExportSpan × ExportSpan

/-- A registered exporter: its period, the place of each period's file, and the stored records its filter
    selects, with their times. -/
structure Registered (π ρ : Type) where
  period : ExporterPeriod
  path : Option Int → π
  time : ρ → Int
  records : List ρ

structure Request where
  after : Int
  before : Option Int
  now : Int
  onConflict : ExportConflict
  rangeMode : ExportRangeMode

inductive ExportError (π : Type) where
  /-- `after` must precede `before`. -/
  | range
  /-- `ExportConflictError`, with the files that exist. -/
  | conflict (existing : List π)

def Request.end (request : Request) : Int := request.before.getD request.now

variable {π ρ : Type}

namespace Registered

variable (exporter : Registered π ρ)

def place (file : File) : π := exporter.path file.1.after

/-- The records `__query` selects of a range. -/
def query (span : ExportSpan) : List ρ := exporter.records.filter fun r => span.holds (exporter.time r)

/-- `__history`. -/
def history : Option Int := (exporter.records.map exporter.time).min?

def files (request : Request) : List File :=
  runFiles exporter.period request.rangeMode request.after request.end

/-- The decision about a file, as the plan and the run take it. -/
def decide (onConflict : ExportConflict) (history : Option Int) (file : File) (fileExists records : Bool) :
    Except (List π) (ExportFileAction × Option ExportKeepReason) :=
  onConflict.decide (exporter.place file) fileExists records (Decidable.decide (file.1 ≠ file.2))
    (beforeHistory file.1 history)

end Registered

/-! ## 2. The plan -/

structure ExportFilePlan (π : Type) where
  path : π
  whole : ExportSpan
  selected : ExportSpan
  fileExists : Bool
  action : ExportFileAction
  reason : Option ExportKeepReason
  records : Nat

def written (action : ExportFileAction) : Bool := action = .create ∨ action = .overwrite

structure ExportPlan (π : Type) where
  after : Int
  before : Int
  onConflict : ExportConflict
  rangeMode : ExportRangeMode
  effective : Option ExportSpan
  files : List (ExportFilePlan π)
  count : Nat

namespace ExporterManager

variable (exporter : Registered π ρ)

/-- The loop of `plan` over the files: those that exist under `error`, and the plans of the others. -/
def planFiles (onConflict : ExportConflict) (disk : Disk π ρ) (history : Option Int)
    (count : ExportSpan → Nat) : List File → List π × List (ExportFilePlan π)
  | [] => ([], [])
  | file :: rest =>
    let (existing, plans) := planFiles onConflict disk history count rest
    let fileExists := (disk (exporter.place file)).isSome
    let records := count file.2
    if fileExists ∧ onConflict = .error then (exporter.place file :: existing, plans)
    else
      match exporter.decide onConflict history file fileExists (Decidable.decide (0 < records)) with
      | .error _ => (existing, plans)
      | .ok (.none, _) => (existing, plans)
      | .ok (action, reason) =>
        (existing, ⟨exporter.place file, file.1, file.2, fileExists, action, reason, records⟩ :: plans)

/-- `plan`; `adjust` gives the records a file would hold from its range and those stored there now. -/
def plan (disk : Disk π ρ) (request : Request) (adjust : ExportSpan → Nat → Nat) :
    Except (ExportError π) (ExportPlan π) :=
  if request.end ≤ request.after then .error .range
  else
    let (existing, files) := planFiles exporter request.onConflict disk exporter.history
      (fun span => adjust span (exporter.query span).length) (exporter.files request)
    if existing ≠ [] then .error (.conflict existing)
    else .ok
      { after := request.after
        before := request.end
        onConflict := request.onConflict
        rangeMode := request.rangeMode
        effective := effectiveSpan exporter.period request.rangeMode request.after request.end
        files
        count := ((files.filter fun file => written file.action).map ExportFilePlan.records).sum }

/-! ## 3. The run -/

variable [DecidableEq π]

/-- `__export_file`: what is left of the disk, the action, and the records written, or for a kept file
    whether it leaves any out. -/
def exportFile (onConflict : ExportConflict) (history : Option Int) (disk : Disk π ρ) (file : File) :
    Except (List π) (Disk π ρ × ExportFileAction × Nat) :=
  let records := exporter.query file.2
  let target := exporter.place file
  match exporter.decide onConflict history file (disk target).isSome (!records.isEmpty) with
  | .error existing => .error existing
  | .ok (.create, _) => .ok (Function.update disk target (some records), .create, records.length)
  | .ok (.overwrite, _) => .ok (Function.update disk target (some records), .overwrite, records.length)
  | .ok (.remove, _) => .ok (Function.update disk target none, .remove, 0)
  | .ok (.keep, _) => .ok (disk, .keep, if records.isEmpty then 0 else 1)
  | .ok (.none, _) => .ok (disk, .none, if records.isEmpty then 0 else 1)

end ExporterManager

/-- The record of a run. -/
structure ExportRun (π : Type) where
  count : Nat
  files : List π
  kept : Nat
  removed : Nat
  periodsDone : Nat
  failed : Bool
  deriving DecidableEq

def ExportRun.started : ExportRun π := ⟨0, [], 0, 0, 0, false⟩

/-- What `__export` notes of a file. -/
def ExportRun.update (run : ExportRun π) (path : π) (action : ExportFileAction) (count : Nat) : ExportRun π :=
  match action with
  | .create | .overwrite =>
    { run with count := run.count + count, files := run.files ++ [path], periodsDone := run.periodsDone + 1 }
  | .keep => { run with kept := run.kept + 1, periodsDone := run.periodsDone + 1 }
  | .remove => { run with removed := run.removed + 1, periodsDone := run.periodsDone + 1 }
  | .none => { run with periodsDone := run.periodsDone + 1 }

/-- What a run did with a file. -/
structure Performed where
  file : File
  action : ExportFileAction
  count : Nat

/-- A run: the disk it leaves, its record, and what it did with each file. -/
structure Outcome (π ρ : Type) where
  disk : Disk π ρ
  run : ExportRun π
  performed : List Performed

namespace ExporterManager

variable [DecidableEq π] (exporter : Registered π ρ)

/-- The loop of `__export`; an error fails the run. -/
def exportFiles (onConflict : ExportConflict) (history : Option Int) :
    List File → Disk π ρ → ExportRun π → Outcome π ρ
  | [], disk, run => ⟨disk, run, []⟩
  | file :: rest, disk, run =>
    match exportFile exporter onConflict history disk file with
    | .error _ => ⟨disk, { run with failed := true }, []⟩
    | .ok (disk, action, count) =>
      let outcome := exportFiles onConflict history rest disk (run.update (exporter.place file) action count)
      { outcome with performed := ⟨file, action, count⟩ :: outcome.performed }

/-- `check_conflicts`, the existing files of the run. -/
def existingFiles (disk : Disk π ρ) (request : Request) : List π :=
  ((exporter.files request).map exporter.place).filter fun path => (disk path).isSome

/-- `start`, with no other run pending, and the run it starts. -/
def start (disk : Disk π ρ) (request : Request) : Except (ExportError π) (Outcome π ρ) :=
  if request.end ≤ request.after then .error .range
  else if request.onConflict = .error ∧ existingFiles exporter disk request ≠ [] then
    .error (.conflict (existingFiles exporter disk request))
  else .ok (exportFiles exporter request.onConflict exporter.history (exporter.files request) disk .started)

end ExporterManager

/-! ## 4. One file -/

def actionOf {ε : Type} : Except ε (ExportFileAction × Option ExportKeepReason) → Option ExportFileAction
  | .ok (action, _) => some action
  | .error _ => none

/-- The action makes a file or takes one away. -/
def changes (action : ExportFileAction) : Bool := action = .create ∨ action = .remove

/-- Whether a file exists makes a difference to every decision. -/
theorem actionOf_exists_ne (onConflict : ExportConflict) (path : π) (records part before : Bool) :
    actionOf (onConflict.decide path true records part before) ≠
      actionOf (onConflict.decide path false records part before) := by
  cases onConflict <;> cases records <;> cases part <;> cases before <;> simp [ExportConflict.decide, actionOf]

section Runs

variable [DecidableEq π] {exporter : Registered π ρ} {onConflict : ExportConflict} {history : Option Int}

/-- The action of the run on a file, when it is decided with the file existing or not. -/
def performedAction (exporter : Registered π ρ) (onConflict : ExportConflict) (history : Option Int)
    (fileExists : Bool) (file : File) : Option ExportFileAction :=
  actionOf (exporter.decide onConflict history file fileExists (!(exporter.query file.2).isEmpty))

/-- What the plan decides on a file, and the run while the file's place is as it was. -/
def planned (exporter : Registered π ρ) (onConflict : ExportConflict) (history : Option Int) (disk : Disk π ρ)
    (file : File) : Option ExportFileAction :=
  performedAction exporter onConflict history (disk (exporter.place file)).isSome file

/-- What the run leaves of the disk and notes of a file on which it performs an action. -/
structure Done (exporter : Registered π ρ) (disk disk' : Disk π ρ) (file : File) (action : ExportFileAction)
    (count : Nat) : Prop where
  others : ∀ path, path ≠ exporter.place file → disk' path = disk path
  turned : changes action = true → (disk' (exporter.place file)).isSome = !(disk (exporter.place file)).isSome
  same : changes action = false → (disk' (exporter.place file)).isSome = (disk (exporter.place file)).isSome
  count : written action = true → count = (exporter.query file.2).length
  untouched : action = .keep ∨ action = .none → disk' = disk

theorem exportFile_ok {disk : Disk π ρ} {file : File} {action : ExportFileAction}
    (h : performedAction exporter onConflict history (disk (exporter.place file)).isSome file = some action) :
    ∃ disk' count,
      ExporterManager.exportFile exporter onConflict history disk file = .ok (disk', action, count) ∧
        Done exporter disk disk' file action count := by
  unfold performedAction at h
  unfold ExporterManager.exportFile
  dsimp only
  cases hdecide : exporter.decide onConflict history file (disk (exporter.place file)).isSome
      (!(exporter.query file.2).isEmpty) with
  | error e =>
    rw [hdecide] at h
    cases h
  | ok result =>
    obtain ⟨found, reason⟩ := result
    rw [hdecide] at h
    obtain rfl := Option.some.inj h
    have hexists : (found = .create → (disk (exporter.place file)).isSome = false) ∧
        (found = .overwrite ∨ found = .remove → (disk (exporter.place file)).isSome = true) := by
      unfold Registered.decide ExportConflict.decide at hdecide
      cases hsome : (disk (exporter.place file)).isSome
      · rw [hsome] at hdecide
        simp only [Bool.not_false, if_true, Except.ok.injEq, Prod.mk.injEq] at hdecide
        refine ⟨fun _ => rfl, fun hfound => ?_⟩
        rw [← hdecide.1] at hfound
        split at hfound <;> simp at hfound
      · refine ⟨fun hcreate => ?_, fun _ => rfl⟩
        rw [hsome, hcreate] at hdecide
        cases onConflict <;> simp at hdecide <;> split_ifs at hdecide <;> simp at hdecide
    cases found with
    | create =>
      refine ⟨_, _, rfl, fun path hne => Function.update_of_ne hne _ _, fun _ => ?_,
        by simp [changes], fun _ => rfl, ?_⟩
      · rw [Function.update_self, hexists.1 rfl]
        rfl
      · simp
    | overwrite =>
      refine ⟨_, _, rfl, fun path hne => Function.update_of_ne hne _ _, by simp [changes],
        fun _ => ?_, fun _ => rfl, ?_⟩
      · rw [Function.update_self, hexists.2 (.inl rfl)]
        rfl
      · simp
    | remove =>
      refine ⟨_, _, rfl, fun path hne => Function.update_of_ne hne _ _, fun _ => ?_,
        by simp [changes], by simp [written], ?_⟩
      · rw [Function.update_self, hexists.2 (.inr rfl)]
        rfl
      · simp
    | keep =>
      exact ⟨_, _, rfl, fun _ _ => rfl, by simp [changes], fun _ => rfl, by simp [written], fun _ => rfl⟩
    | none =>
      exact ⟨_, _, rfl, fun _ _ => rfl, by simp [changes], fun _ => rfl, by simp [written], fun _ => rfl⟩

theorem exportFile_error {disk : Disk π ρ} {file : File}
    (h : performedAction exporter onConflict history (disk (exporter.place file)).isSome file = none) :
    ∃ existing, ExporterManager.exportFile exporter onConflict history disk file = .error existing := by
  unfold performedAction at h
  unfold ExporterManager.exportFile
  dsimp only
  cases hdecide : exporter.decide onConflict history file (disk (exporter.place file)).isSome
      (!(exporter.query file.2).isEmpty) with
  | error e => exact ⟨e, rfl⟩
  | ok result =>
    rw [hdecide] at h
    cases h

/-! ## 5. The whole run -/

def Performs (ideal : File → Option ExportFileAction) (files : List File) (performed : List Performed) : Prop :=
  List.Forall₂ (fun file p => p.file = file ∧ ideal file = some p.action) files performed

/-- The record of a run that did not fail. -/
def recordOf (exporter : Registered π ρ) (performed : List Performed) (run : ExportRun π) : ExportRun π :=
  performed.foldl (fun run p => run.update (exporter.place p.file) p.action p.count) run

/-- No file is created or removed at the place of a later one. -/
def Apart (ideal : File → Option ExportFileAction) (exporter : Registered π ρ) (files : List File) : Prop :=
  files.Pairwise fun file later => exporter.place file = exporter.place later →
    ∀ action, ideal file = some action → changes action = false

/-- **The run performs what is decided on the disk as it was**, where no place is changed before its turn. -/
theorem exportFiles_planned (before : Disk π ρ) : ∀ (files : List File) (disk : Disk π ρ) (run : ExportRun π),
      (∀ file ∈ files, (disk (exporter.place file)).isSome = (before (exporter.place file)).isSome) →
      Apart (planned exporter onConflict history before) exporter files →
      (∀ file ∈ files, planned exporter onConflict history before file ≠ none) →
      ∃ performed, ExporterManager.exportFiles exporter onConflict history files disk run =
          ⟨(ExporterManager.exportFiles exporter onConflict history files disk run).disk,
            recordOf exporter performed run, performed⟩ ∧
        Performs (planned exporter onConflict history before) files performed ∧
        (∀ p ∈ performed, written p.action = true → p.count = (exporter.query p.file.2).length) ∧
        (∀ path, (∀ p ∈ performed, exporter.place p.file = path → p.action = .keep ∨ p.action = .none) →
          (ExporterManager.exportFiles exporter onConflict history files disk run).disk path = disk path)
  | [], disk, run, _, _, _ => ⟨[], rfl, .nil, by simp, fun _ _ => rfl⟩
  | file :: rest, disk, run, hsame, hapart, hall => by
    obtain ⟨hfirst, hrest⟩ := List.pairwise_cons.mp hapart
    obtain ⟨action, haction⟩ := Option.ne_none_iff_exists'.mp (hall file List.mem_cons_self)
    have hnow : performedAction exporter onConflict history (disk (exporter.place file)).isSome file =
        some action := by
      rw [hsame file List.mem_cons_self]
      exact haction
    obtain ⟨disk', count, hfile, hdone⟩ := exportFile_ok hnow
    have hsame' : ∀ later ∈ rest,
        (disk' (exporter.place later)).isSome = (before (exporter.place later)).isSome := by
      intro later hlater
      rw [← hsame later (List.mem_cons_of_mem _ hlater)]
      by_cases hplace : exporter.place later = exporter.place file
      · rw [hplace]
        exact hdone.same (hfirst later hlater hplace.symm action haction)
      · rw [hdone.others _ hplace]
    obtain ⟨performed, hloop, hperforms, hcounts, hdisk⟩ := exportFiles_planned before rest disk'
      (run.update (exporter.place file) action count) hsame' hrest
      fun later hlater => hall later (List.mem_cons_of_mem _ hlater)
    have heq : ExporterManager.exportFiles exporter onConflict history (file :: rest) disk run =
        ⟨(ExporterManager.exportFiles exporter onConflict history rest disk'
            (run.update (exporter.place file) action count)).disk,
          recordOf exporter performed (run.update (exporter.place file) action count),
            ⟨file, action, count⟩ :: performed⟩ := by
      rw [ExporterManager.exportFiles, hfile]
      dsimp only
      rw [hloop]
    refine ⟨⟨file, action, count⟩ :: performed, by rw [heq]; rfl,
      .cons ⟨rfl, haction⟩ hperforms, List.forall_mem_cons.mpr ⟨hdone.count, hcounts⟩, fun path hpath => ?_⟩
    rw [heq]
    have hlater := hdisk path fun p hp => hpath p (List.mem_cons_of_mem _ hp)
    rw [hlater]
    by_cases hplace : path = exporter.place file
    · rw [hdone.untouched (hpath _ List.mem_cons_self hplace.symm)]
    · exact hdone.others path hplace

/-- A file that stands where it did not, or does not where it did, is decided on otherwise. -/
theorem exportFiles_otherwise (before : Disk π ρ) {later : File} :
    ∀ (files : List File) (disk : Disk π ρ) (run : ExportRun π), later ∈ files →
      (disk (exporter.place later)).isSome ≠ (before (exporter.place later)).isSome →
      ¬ Performs (planned exporter onConflict history before) files
        (ExporterManager.exportFiles exporter onConflict history files disk run).performed
  | file :: rest, disk, run, hmem, hdiff => by
    intro hperforms
    rw [ExporterManager.exportFiles] at hperforms
    cases haction : performedAction exporter onConflict history (disk (exporter.place file)).isSome file with
    | none =>
      obtain ⟨existing, herror⟩ := exportFile_error haction
      rw [herror] at hperforms
      cases hperforms
    | some action =>
      obtain ⟨disk', count, hfile, hdone⟩ := exportFile_ok haction
      rw [hfile] at hperforms
      dsimp only at hperforms
      obtain ⟨⟨-, hideal⟩, hrest⟩ := List.forall₂_cons.mp hperforms
      by_cases hplace : exporter.place file = exporter.place later
      · -- its own turn, or that of an earlier file at its place
        have hother : performedAction exporter onConflict history (disk (exporter.place file)).isSome file ≠
            performedAction exporter onConflict history (before (exporter.place file)).isSome file := by
          have hne := actionOf_exists_ne onConflict (exporter.place file) (!(exporter.query file.2).isEmpty)
            (decide (file.1 ≠ file.2)) (beforeHistory file.1 history)
          rw [hplace]
          cases hnow : (disk (exporter.place later)).isSome <;>
            cases hthen : (before (exporter.place later)).isSome <;> rw [hnow, hthen] at hdiff
          · exact absurd rfl hdiff
          · exact hne.symm
          · exact hne
          · exact absurd rfl hdiff
        exact hother (haction.trans hideal.symm)
      · rcases List.mem_cons.mp hmem with rfl | hlater
        · exact hplace rfl
        · refine exportFiles_otherwise before rest disk' _ hlater ?_ hrest
          rw [hdone.others _ (Ne.symm hplace)]
          exact hdiff

/-- **A place changed before its turn** makes the run perform something else. -/
theorem exportFiles_clash (before : Disk π ρ) : ∀ (files : List File) (disk : Disk π ρ) (run : ExportRun π),
      (∀ file ∈ files, (disk (exporter.place file)).isSome = (before (exporter.place file)).isSome) →
      Performs (planned exporter onConflict history before) files
        (ExporterManager.exportFiles exporter onConflict history files disk run).performed →
      Apart (planned exporter onConflict history before) exporter files
  | [], _, _, _, _ => List.Pairwise.nil
  | file :: rest, disk, run, hsame, hperforms => by
    rw [ExporterManager.exportFiles] at hperforms
    cases haction : performedAction exporter onConflict history (disk (exporter.place file)).isSome file with
    | none =>
      obtain ⟨existing, herror⟩ := exportFile_error haction
      rw [herror] at hperforms
      cases hperforms
    | some action =>
      obtain ⟨disk', count, hfile, hdone⟩ := exportFile_ok haction
      rw [hfile] at hperforms
      dsimp only at hperforms
      obtain ⟨⟨-, hideal⟩, hrest⟩ := List.forall₂_cons.mp hperforms
      have hsame' : ∀ later ∈ rest,
          (disk' (exporter.place later)).isSome = (before (exporter.place later)).isSome := by
        intro later hlater
        by_contra hdiff
        exact exportFiles_otherwise before rest disk' _ hlater hdiff hrest
      refine List.pairwise_cons.mpr ⟨fun later hlater hplace found hfound => ?_,
        exportFiles_clash before rest disk' _ hsame' hrest⟩
      obtain rfl : action = found := Option.some.inj (hideal.symm.trans hfound)
      by_contra hchanges
      have hturned := hdone.turned (Bool.not_eq_false _ ▸ hchanges)
      have hboth := hsame' later hlater
      rw [← hsame later (List.mem_cons_of_mem _ hlater), ← hplace, hturned] at hboth
      exact Bool.not_ne_self _ hboth

end Runs

/-! ## 6. The plan and the run -/

section Plans

variable {exporter : Registered π ρ} {onConflict : ExportConflict} {history : Option Int}

/-- What a plan decides on a file by the records it counts. -/
def foreseen (exporter : Registered π ρ) (onConflict : ExportConflict) (history : Option Int) (disk : Disk π ρ)
    (count : ExportSpan → Nat) (file : File) : Option ExportFileAction :=
  actionOf (exporter.decide onConflict history file (disk (exporter.place file)).isSome
    (Decidable.decide (0 < count file.2)))

/-- The plan of a file, by the records it counts. -/
structure Foreseen (exporter : Registered π ρ) (onConflict : ExportConflict) (history : Option Int)
    (disk : Disk π ρ) (count : ExportSpan → Nat) (file : File) (plan : ExportFilePlan π) : Prop where
  path : plan.path = exporter.place file
  whole : plan.whole = file.1
  selected : plan.selected = file.2
  action : foreseen exporter onConflict history disk count file = some plan.action
  records : plan.records = count file.2

variable {disk : Disk π ρ} {file : File}

theorem foreseen_eq_none {count : ExportSpan → Nat} :
    foreseen exporter onConflict history disk count file = none ↔
      (disk (exporter.place file)).isSome = true ∧ onConflict = .error := by
  unfold foreseen Registered.decide ExportConflict.decide
  cases (disk (exporter.place file)).isSome
  · simp [actionOf]
  · cases onConflict <;> simp only [Bool.not_true, Bool.false_eq_true, if_false]
    case overwrite => split_ifs <;> simp [actionOf]
    all_goals simp [actionOf]

structure Planned (exporter : Registered π ρ) (onConflict : ExportConflict) (history : Option Int)
    (disk : Disk π ρ) (file : File) (plan : ExportFilePlan π) : Prop where
  path : plan.path = exporter.place file
  whole : plan.whole = file.1
  action : planned exporter onConflict history disk file = some plan.action
  records : plan.records = (exporter.query file.2).length

/-- The records the plan counts, with nothing that would change them first. -/
def counted (exporter : Registered π ρ) (span : ExportSpan) : Nat := (exporter.query span).length

/-- A plan that counts the records that are stored decides what the run does. -/
theorem planned_eq_foreseen : planned exporter onConflict history disk file =
      foreseen exporter onConflict history disk (counted exporter) file := by
  have hrecords : (!(exporter.query file.2).isEmpty) = Decidable.decide (0 < counted exporter file.2) := by
    unfold counted
    cases exporter.query file.2 <;> simp
  unfold planned performedAction foreseen
  rw [hrecords]

theorem planned_eq_none : planned exporter onConflict history disk file = none ↔
      (disk (exporter.place file)).isSome = true ∧ onConflict = .error := by
  rw [planned_eq_foreseen, foreseen_eq_none]

theorem planFiles_existing (count : ExportSpan → Nat) (disk : Disk π ρ) : ∀ files : List File,
    (ExporterManager.planFiles exporter onConflict disk history count files).1 =
      if onConflict = .error then (files.map exporter.place).filter fun path => (disk path).isSome else []
  | [] => by simp [ExporterManager.planFiles]
  | file :: rest => by
    have hrest := planFiles_existing count disk rest
    rw [ExporterManager.planFiles]
    by_cases herror : onConflict = .error
    · rw [if_pos herror] at hrest ⊢
      cases hexists : (disk (exporter.place file)).isSome
      · simp only [Bool.false_eq_true, false_and, if_false, List.map_cons, List.filter_cons, hexists]
        rw [← hrest]
        split <;> rfl
      · simp only [herror, and_self, if_true, List.map_cons, List.filter_cons, hexists]
        rw [← hrest, herror]
    · rw [if_neg herror] at hrest ⊢
      simp only [herror, and_false, if_false]
      rw [← hrest]
      split <;> rfl

theorem planFiles_foreseen (disk : Disk π ρ) (count : ExportSpan → Nat) : ∀ files : List File,
    (∀ file ∈ files, foreseen exporter onConflict history disk count file ≠ none) →
    List.Forall₂ (Foreseen exporter onConflict history disk count)
      (files.filter fun file => foreseen exporter onConflict history disk count file ≠ some .none)
      (ExporterManager.planFiles exporter onConflict disk history count files).2
  | [], _ => .nil
  | file :: rest, hall => by
    have hrest := planFiles_foreseen disk count rest fun later hlater => hall later (List.mem_cons_of_mem _ hlater)
    have hfile := hall file List.mem_cons_self
    rw [ExporterManager.planFiles]
    dsimp only
    rw [if_neg (fun h => hfile (foreseen_eq_none.mpr h))]
    have haction : foreseen exporter onConflict history disk count file = actionOf (exporter.decide onConflict
      history file (disk (exporter.place file)).isSome (Decidable.decide (0 < count file.2))) := rfl
    cases hdecide : exporter.decide onConflict history file (disk (exporter.place file)).isSome
        (Decidable.decide (0 < count file.2)) with
    | error e =>
      rw [hdecide] at haction
      exact absurd haction hfile
    | ok result =>
      obtain ⟨action, reason⟩ := result
      rw [hdecide] at haction
      have hsome : foreseen exporter onConflict history disk count file = some action := haction
      cases action with
      | none =>
        rw [List.filter_cons_of_neg (by simp [hsome])]
        exact hrest
      | create | overwrite | remove | keep =>
        rw [List.filter_cons_of_pos (by simp [hsome])]
        exact .cons ⟨rfl, rfl, rfl, hsome, rfl⟩ hrest

theorem planFiles_planned (disk : Disk π ρ) (files : List File)
    (hall : ∀ file ∈ files, planned exporter onConflict history disk file ≠ none) :
    List.Forall₂ (Planned exporter onConflict history disk)
      (files.filter fun file => planned exporter onConflict history disk file ≠ some .none)
      (ExporterManager.planFiles exporter onConflict disk history (counted exporter) files).2 := by
  simp only [planned_eq_foreseen] at hall ⊢
  refine (planFiles_foreseen disk (counted exporter) files hall).imp fun file plan h => ?_
  exact ⟨h.path, h.whole, planned_eq_foreseen.trans h.action, h.records⟩

/-- A file's path, the action on it, and the records written. -/
def digest (path : π) (action : ExportFileAction) (count : Nat) : π × ExportFileAction × Nat :=
  (path, action, if written action then count else 0)

theorem digest_written {α : Type} (path : α → π) (action : α → ExportFileAction) (count : α → Nat) :
    ∀ l : List α, ((l.map fun a => digest (path a) (action a) (count a)).filter fun d => written d.2.1).map
        (fun d => (d.1, d.2.2)) = (l.filter fun a => written (action a)).map fun a => (path a, count a)
  | [] => rfl
  | a :: l => by
    have hrest := digest_written path action count l
    cases hwritten : written (action a) <;>
      simp only [List.map_cons, List.filter_cons, digest, hwritten, if_true, Bool.false_eq_true, if_false]
    · exact hrest
    · exact congrArg _ hrest

theorem plans_digest : ∀ {files : List File} {performed : List Performed}
    {plans : List (ExportFilePlan π)}, Performs (planned exporter onConflict history disk) files performed →
    (∀ p ∈ performed, written p.action = true → p.count = (exporter.query p.file.2).length) →
    List.Forall₂ (Planned exporter onConflict history disk)
      (files.filter fun file => planned exporter onConflict history disk file ≠ some .none) plans →
    plans.map (fun plan => digest plan.path plan.action plan.records) =
      (performed.filter fun p => p.action ≠ .none).map fun p => digest (exporter.place p.file) p.action p.count
  | [], _, _, .nil, _, hplans => by
    cases hplans
    rfl
  | file :: rest, p :: performed, plans, .cons hp hperformed, hcounts, hplans => by
    obtain ⟨rfl, haction⟩ := hp
    obtain ⟨hcount, hcounts⟩ := List.forall_mem_cons.mp hcounts
    by_cases hnone : p.action = .none
    · rw [List.filter_cons_of_neg (by simp [haction, hnone])] at hplans
      rw [List.filter_cons_of_neg (by simp [hnone])]
      exact plans_digest hperformed hcounts hplans
    · rw [List.filter_cons_of_pos (by simp [haction, hnone])] at hplans
      rw [List.filter_cons_of_pos (by simp [hnone])]
      cases hplans with
      | @cons _ plan _ plans hplan hplans =>
        rw [List.map_cons, List.map_cons, plans_digest hperformed hcounts hplans]
        have hsame : plan.action = p.action := Option.some.inj (hplan.action.symm.trans haction)
        unfold digest
        rw [hplan.path, hplan.records, hsame]
        split_ifs with hwritten
        · rw [hcount hwritten]
        · rfl

theorem recordOf_eq : ∀ (performed : List Performed) (run : ExportRun π), recordOf exporter performed run =
      { count := run.count + ((performed.filter fun p => written p.action).map Performed.count).sum
        files := run.files ++ (performed.filter fun p => written p.action).map fun p => exporter.place p.file
        kept := run.kept + performed.countP (·.action = .keep)
        removed := run.removed + performed.countP (·.action = .remove)
        periodsDone := run.periodsDone + performed.length, failed := run.failed }
  | [], run => by simp [recordOf]
  | p :: performed, run => by
    have hrest := recordOf_eq performed (run.update (exporter.place p.file) p.action p.count)
    unfold recordOf at hrest ⊢
    rw [List.foldl_cons, hrest]
    cases haction : p.action <;>
      simp [ExportRun.update, haction, written, Nat.add_assoc, Nat.add_comm 1]

/-! ## 7. What a plan predicts -/

/-- The action the plan lists for a file, `none` for a file it does not list. -/
def ExportPlan.listed (plan : ExportPlan π) (whole : ExportSpan) : ExportFileAction :=
  ((plan.files.find? fun file => file.whole = whole).map ExportFilePlan.action).getD .none

theorem periodsFrom_increase {period : ExporterPeriod} (h : period ≠ .all) (before : Int) :
    ∀ (fuel : Nat) (start : Int), (∀ bounds ∈ periodsFrom period before fuel start, start ≤ bounds.1) ∧
      (periodsFrom period before fuel start).Pairwise fun bounds later => bounds.1 < later.1
  | 0, _ => ⟨by simp [periodsFrom], .nil⟩
  | fuel + 1, start => by
    obtain ⟨hle, hincrease⟩ := periodsFrom_increase h before fuel (periodShift period start 1)
    have hlt := lt_periodShift h start
    rw [periodsFrom]
    split
    · refine ⟨List.forall_mem_cons.mpr ⟨le_rfl, fun bounds hbounds => hlt.le.trans (hle bounds hbounds)⟩,
        List.pairwise_cons.mpr ⟨fun later hlater => hlt.trans_le (hle later hlater), hincrease⟩⟩
    · exact ⟨by simp, .nil⟩

theorem spanFiles_distinct (period : ExporterPeriod) (span : ExportSpan) :
    (spanFiles period span).Pairwise fun file later => file.1 ≠ later.1 := by
  unfold spanFiles
  split
  · split
    · exact List.pairwise_singleton _ _
    · rename_i hperiod
      refine List.pairwise_map.mpr ((periodsFrom_increase hperiod _ _ _).2.imp fun hlt heq => ?_)
      exact hlt.ne (Option.some.inj (congrArg ExportSpan.after heq))
  · exact List.pairwise_singleton _ _

theorem files_distinct (exporter : Registered π ρ) (request : Request) :
    (exporter.files request).Pairwise fun file later => file.1 ≠ later.1 := by
  unfold Registered.files runFiles
  split
  · exact .nil
  · exact spanFiles_distinct _ _

theorem find_planned_none {whole : ExportSpan} {files : List File} {plans : List (ExportFilePlan π)}
    (hplans : List.Forall₂ (Planned exporter onConflict history disk) files plans)
    (hwhole : ∀ file ∈ files, whole ≠ file.1) : plans.find? (fun plan => plan.whole = whole) = none := by
  induction hplans with
  | nil => rfl
  | @cons file plan files plans hplan _ ih =>
    obtain ⟨hfile, hfiles⟩ := List.forall_mem_cons.mp hwhole
    rw [List.find?_cons_of_neg (by simpa [hplan.whole] using hfile.symm)]
    exact ih hfiles

theorem listed_eq : ∀ {files : List File} {plans : List (ExportFilePlan π)},
    (files.Pairwise fun file later => file.1 ≠ later.1) →
    List.Forall₂ (Planned exporter onConflict history disk)
      (files.filter fun file => planned exporter onConflict history disk file ≠ some .none) plans →
    (∀ file ∈ files, planned exporter onConflict history disk file ≠ none) →
    ∀ file ∈ files, planned exporter onConflict history disk file =
      some (((plans.find? fun plan => plan.whole = file.1).map ExportFilePlan.action).getD .none)
  | [], _, _, _, _ => by simp
  | first :: rest, plans, hdistinct, hplans, hall => by
    obtain ⟨hfirst, hrest⟩ := List.pairwise_cons.mp hdistinct
    obtain ⟨action, haction⟩ := Option.ne_none_iff_exists'.mp (hall first List.mem_cons_self)
    have hlater := fun later hlater => hall later (List.mem_cons_of_mem first hlater)
    by_cases hnone : action = .none
    · rw [List.filter_cons_of_neg (by simp [haction, hnone])] at hplans
      refine List.forall_mem_cons.mpr ⟨?_, listed_eq hrest hplans hlater⟩
      rw [find_planned_none hplans fun file hfile => hfirst file (List.mem_of_mem_filter hfile), haction, hnone]
      rfl
    · rw [List.filter_cons_of_pos (by simp [haction, hnone])] at hplans
      cases hplans with
      | @cons _ plan _ plans hplan hplans =>
        refine List.forall_mem_cons.mpr ⟨?_, fun file hfile => ?_⟩
        · rw [List.find?_cons_of_pos (by simp [hplan.whole])]
          exact hplan.action
        · rw [List.find?_cons_of_neg (by simpa [hplan.whole] using hfirst file hfile)]
          exact listed_eq hrest hplans hlater file hfile

theorem performs_iff {ideal : File → Option ExportFileAction} {listed : File → ExportFileAction} :
    ∀ {files : List File} {performed : List Performed}, (∀ file ∈ files, ideal file = some (listed file)) →
      (Performs ideal files performed ↔
        performed.map (fun p => (p.file, p.action)) = files.map fun file => (file, listed file))
  | [], performed, _ => by
    refine ⟨fun h => ?_, fun h => ?_⟩
    · cases h
      rfl
    · rw [List.map_eq_nil_iff.mp h]
      exact .nil
  | file :: rest, [], _ => ⟨nofun, nofun⟩
  | file :: rest, p :: performed, hideal => by
    obtain ⟨hfile, hrest⟩ := List.forall_mem_cons.mp hideal
    have ih : Performs ideal rest performed ↔ _ := performs_iff hrest
    unfold Performs at ih ⊢
    have hpair : (p.file, p.action) = (file, listed file) ↔ p.file = file ∧ listed file = p.action :=
      ⟨fun h => ⟨congrArg Prod.fst h, (congrArg Prod.snd h).symm⟩, fun h => by rw [h.1, h.2]⟩
    rw [List.forall₂_cons, ih, List.map_cons, List.map_cons, List.cons.injEq, hpair, hfile, Option.some.injEq]

theorem performed_of_mem {ideal : File → Option ExportFileAction} {files : List File}
    {performed : List Performed} (h : Performs ideal files performed) (hfile : file ∈ files) :
    ∃ p ∈ performed, p.file = file ∧ ideal file = some p.action := by
  induction h with
  | nil => cases hfile
  | cons hp _ ih =>
    rcases List.mem_cons.mp hfile with rfl | hlater
    · exact ⟨_, List.mem_cons_self, hp⟩
    · obtain ⟨p, hmem, hp⟩ := ih hlater
      exact ⟨p, List.mem_cons_of_mem _ hmem, hp⟩

structure Predicts (exporter : Registered π ρ) (disk : Disk π ρ) (request : Request) (plan : ExportPlan π)
    (outcome : Outcome π ρ) : Prop where
  completed : outcome.run.failed = false
  /-- Each file gets the listed action, a file that is not listed none. -/
  actions : outcome.performed.map (fun p => (p.file, p.action)) =
    (exporter.files request).map fun file => (file, plan.listed file.1)
  records : (outcome.performed.filter fun p => written p.action).map
      (fun p => (exporter.place p.file, p.count)) =
    (plan.files.filter fun file => written file.action).map fun file => (file.path, file.records)
  untouched : ∀ path, path ∉ plan.files.map ExportFilePlan.path → outcome.disk path = disk path
  absent : ∀ file ∈ exporter.files request, exporter.place file ∉ plan.files.map ExportFilePlan.path →
    outcome.disk (exporter.place file) = none
  count : outcome.run.count = plan.count
  files : outcome.run.files = (plan.files.filter fun file => written file.action).map ExportFilePlan.path
  kept : outcome.run.kept = plan.files.countP (·.action = .keep)
  removed : outcome.run.removed = plan.files.countP (·.action = .remove)

/-- `plan` raises what `start` raises, or predicts its run. -/
inductive Predicted (exporter : Registered π ρ) (disk : Disk π ρ) (request : Request) :
    Except (ExportError π) (ExportPlan π) → Except (ExportError π) (Outcome π ρ) → Prop where
  | refused (error : ExportError π) : Predicted exporter disk request (.error error) (.error error)
  | ran {plan : ExportPlan π} {outcome : Outcome π ρ} (h : Predicts exporter disk request plan outcome) :
    Predicted exporter disk request (.ok plan) (.ok outcome)

/-- Both refuse the request. -/
def Refused (exporter : Registered π ρ) (disk : Disk π ρ) (request : Request) : Prop :=
  request.end ≤ request.after ∨
    request.onConflict = .error ∧ ExporterManager.existingFiles exporter disk request ≠ []

/-- No file takes the place of a later one: where they share a path, the earlier one has no records to create
    it with, and under `purge` some to keep it. -/
def Undisturbed (exporter : Registered π ρ) (disk : Disk π ρ) (request : Request) : Prop :=
  (exporter.files request).Pairwise fun file later => exporter.place file = exporter.place later →
    if (disk (exporter.place file)).isSome then
      ¬ (request.onConflict = .purge ∧ exporter.query file.2 = [])
    else exporter.query file.2 = []

/-- The files that are made or taken away. -/
theorem planned_changes_iff :
    (∀ action, planned exporter onConflict history disk file = some action → changes action = false) ↔
      if (disk (exporter.place file)).isSome then ¬ (onConflict = .purge ∧ exporter.query file.2 = [])
      else exporter.query file.2 = [] := by
  unfold planned performedAction Registered.decide ExportConflict.decide
  rw [← List.isEmpty_iff]
  cases (disk (exporter.place file)).isSome
  · cases (exporter.query file.2).isEmpty <;> simp [actionOf, changes]
  · cases onConflict <;> cases (exporter.query file.2).isEmpty <;>
      simp only [Bool.not_true, Bool.not_false, Bool.false_eq_true, if_false, if_true]
    case overwrite.false => split_ifs <;> simp [actionOf, changes]
    all_goals simp [actionOf, changes]

theorem apart_iff (exporter : Registered π ρ) (history : Option Int) (disk : Disk π ρ) (request : Request) :
    Apart (planned exporter request.onConflict history disk) exporter (exporter.files request) ↔
      Undisturbed exporter disk request := by
  unfold Apart Undisturbed
  simp only [planned_changes_iff]

theorem planned_none
    (h : planned exporter onConflict history disk file = some .none) : disk (exporter.place file) = none := by
  cases hexists : disk (exporter.place file) with
  | none => rfl
  | some records =>
    unfold planned performedAction Registered.decide ExportConflict.decide at h
    rw [hexists] at h
    cases onConflict <;> simp [actionOf] at h <;> split_ifs at h <;> simp at h

end Plans

section Claim

variable (exporter : Registered π ρ) (disk : Disk π ρ) (request : Request)

theorem predicts_of_performs {plan : ExportPlan π} {outcome : Outcome π ρ}
    (hall : ∀ file ∈ exporter.files request,
      planned exporter request.onConflict exporter.history disk file ≠ none)
    (hplans : List.Forall₂ (Planned exporter request.onConflict exporter.history disk)
      ((exporter.files request).filter fun file =>
        planned exporter request.onConflict exporter.history disk file ≠ some .none) plan.files)
    (hcount : plan.count = ((plan.files.filter fun file => written file.action).map ExportFilePlan.records).sum)
    (hrun : outcome.run = recordOf exporter outcome.performed .started)
    (hperforms : Performs (planned exporter request.onConflict exporter.history disk) (exporter.files request)
      outcome.performed)
    (hcounts : ∀ p ∈ outcome.performed, written p.action = true → p.count = (exporter.query p.file.2).length)
    (hdisk : ∀ path, (∀ p ∈ outcome.performed, exporter.place p.file = path →
      p.action = .keep ∨ p.action = .none) → outcome.disk path = disk path) :
    Predicts exporter disk request plan outcome := by
  have hlisted := listed_eq (files_distinct exporter request) hplans hall
  have hdigest := plans_digest hperforms hcounts hplans
  have hlist : ∀ action, action ≠ ExportFileAction.none →
      plan.files.countP (·.action = action) = outcome.performed.countP (·.action = action) := by
    intro action haction
    have hsame := congrArg (List.countP fun d : π × ExportFileAction × Nat => decide (d.2.1 = action)) hdigest
    rw [List.countP_map, List.countP_map, List.countP_filter] at hsame
    refine hsame.trans (List.countP_congr fun p _ => ?_)
    by_cases heq : p.action = action
    · simp [digest, heq, haction]
    · simp [digest, heq]
  have hwritten : (outcome.performed.filter fun p => written p.action).map
        (fun p => (exporter.place p.file, p.count)) =
      (plan.files.filter fun file => written file.action).map fun file => (file.path, file.records) := by
    have hsame := congrArg (fun l : List (π × ExportFileAction × Nat) =>
      (l.filter fun d => written d.2.1).map fun d => (d.1, d.2.2)) hdigest
    rw [digest_written, digest_written, List.filter_filter] at hsame
    rw [hsame]
    refine congrArg _ (List.filter_congr fun p _ => ?_)
    cases p.action <;> rfl
  have hpath : ∀ p ∈ outcome.performed, p.action ≠ .none →
      exporter.place p.file ∈ plan.files.map ExportFilePlan.path := by
    intro p hp hne
    have hmem : digest (exporter.place p.file) p.action p.count ∈
        plan.files.map fun file => digest file.path file.action file.records := by
      rw [hdigest]
      exact List.mem_map_of_mem (f := fun p : Performed => digest (exporter.place p.file) p.action p.count)
        (List.mem_filter.mpr ⟨hp, by simpa using hne⟩)
    obtain ⟨file, hfile, heq⟩ := List.mem_map.mp hmem
    exact List.mem_map.mpr ⟨file, hfile, congrArg Prod.fst heq⟩
  have huntouched : ∀ path, path ∉ plan.files.map ExportFilePlan.path → outcome.disk path = disk path := by
    intro path hnot
    refine hdisk path fun p hp hplace => .inr ?_
    by_contra hne
    exact hnot (hplace ▸ hpath p hp hne)
  refine ⟨?_, ?_, hwritten, huntouched, fun file hfile hnot => ?_, ?_, ?_, ?_, ?_⟩
  · rw [hrun, recordOf_eq]
    rfl
  · exact (performs_iff hlisted).mp hperforms
  · rw [huntouched _ hnot]
    obtain ⟨action, haction⟩ := Option.ne_none_iff_exists'.mp (hall file hfile)
    obtain ⟨p, hp, rfl, hideal⟩ := performed_of_mem hperforms hfile
    by_cases hnone : p.action = .none
    · exact planned_none (hideal.trans (congrArg some hnone))
    · exact absurd (hpath p hp hnone) hnot
  · have hsame := congrArg (fun l : List (π × Nat) => (l.map Prod.snd).sum) hwritten
    simp only [List.map_map] at hsame
    rw [hrun, recordOf_eq, hcount]
    exact (Nat.zero_add _).trans hsame
  · have hsame := congrArg (List.map Prod.fst) hwritten
    simp only [List.map_map] at hsame
    rw [hrun, recordOf_eq]
    exact (List.nil_append _).trans hsame
  · rw [hrun, recordOf_eq, hlist _ (by decide)]
    exact Nat.zero_add _
  · rw [hrun, recordOf_eq, hlist _ (by decide)]
    exact Nat.zero_add _

variable [DecidableEq π]

theorem plan_refused (h : Refused exporter disk request) :
    ∃ error, ExporterManager.plan exporter disk request (fun _ n => n) = .error error ∧
      ExporterManager.start exporter disk request = .error error := by
  unfold ExporterManager.plan ExporterManager.start
  rcases h with hrange | ⟨hmode, hexisting⟩
  · rw [if_pos hrange, if_pos hrange]
    exact ⟨_, rfl, rfl⟩
  · by_cases hrange : request.end ≤ request.after
    · rw [if_pos hrange, if_pos hrange]
      exact ⟨_, rfl, rfl⟩
    · rw [if_neg hrange, if_neg hrange, if_pos ⟨hmode, hexisting⟩]
      dsimp only
      rw [planFiles_existing, if_pos hmode]
      exact ⟨_, if_pos hexisting, rfl⟩

theorem plan_runs (h : ¬ Refused exporter disk request) :
    (∀ file ∈ exporter.files request, planned exporter request.onConflict exporter.history disk file ≠ none) ∧
    ∃ plan, ExporterManager.plan exporter disk request (fun _ n => n) = .ok plan ∧
      ExporterManager.start exporter disk request = .ok (ExporterManager.exportFiles exporter request.onConflict
        exporter.history (exporter.files request) disk .started) ∧
      List.Forall₂ (Planned exporter request.onConflict exporter.history disk)
        ((exporter.files request).filter fun file =>
          planned exporter request.onConflict exporter.history disk file ≠ some .none) plan.files ∧
      plan.count = ((plan.files.filter fun file => written file.action).map ExportFilePlan.records).sum := by
  obtain ⟨hrange, hconflict⟩ := not_or.mp h
  have hall : ∀ file ∈ exporter.files request,
      planned exporter request.onConflict exporter.history disk file ≠ none := by
    intro file hfile hnone
    obtain ⟨hexists, hmode⟩ := planned_eq_none.mp hnone
    refine hconflict ⟨hmode, List.ne_nil_of_mem (a := exporter.place file) ?_⟩
    exact List.mem_filter.mpr ⟨List.mem_map_of_mem hfile, hexists⟩
  refine ⟨hall, ?_⟩
  unfold ExporterManager.plan ExporterManager.start
  rw [if_neg hrange, if_neg hrange, if_neg hconflict]
  dsimp only
  have hnone : (ExporterManager.planFiles exporter request.onConflict disk exporter.history
      (fun span => (exporter.query span).length) (exporter.files request)).1 = [] := by
    rw [planFiles_existing]
    split_ifs with hmode
    · exact not_not.mp fun hexisting => hconflict ⟨hmode, hexisting⟩
    · rfl
  rw [if_neg (not_not.mpr hnone)]
  exact ⟨_, rfl, rfl, planFiles_planned disk _ hall, rfl⟩

/-- A run that is predicted was disturbed by none of its own files. -/
theorem undisturbed_of_predicted (hrefused : ¬ Refused exporter disk request)
    (hpredicted : Predicted exporter disk request (ExporterManager.plan exporter disk request fun _ n => n)
      (ExporterManager.start exporter disk request)) : Undisturbed exporter disk request := by
  obtain ⟨hall, plan, hplan, hstart, hplans, -⟩ := plan_runs exporter disk request hrefused
  rw [hplan, hstart] at hpredicted
  cases hpredicted with
  | ran hpredicts =>
    refine (apart_iff exporter exporter.history disk request).mp
      (exportFiles_clash disk _ disk .started (fun _ _ => rfl) ?_)
    exact (performs_iff (listed_eq (files_distinct exporter request) hplans hall)).mpr hpredicts.actions

/-- A run that none of its own files disturbs is predicted. -/
theorem predicted_of_undisturbed (hrefused : ¬ Refused exporter disk request)
    (h : Undisturbed exporter disk request) :
    Predicted exporter disk request (ExporterManager.plan exporter disk request fun _ n => n)
      (ExporterManager.start exporter disk request) := by
  obtain ⟨hall, plan, hplan, hstart, hplans, hcount⟩ := plan_runs exporter disk request hrefused
  obtain ⟨performed, hloop, hperforms, hcounts, hdisk⟩ := exportFiles_planned disk _ disk .started
    (fun _ _ => rfl) ((apart_iff exporter _ disk request).mpr h) hall
  rw [hplan, hstart, hloop]
  exact .ran (predicts_of_performs exporter disk request hall hplans hcount rfl hperforms hcounts hdisk)

/-- **A dry run predicts the run** exactly if no file is made or removed at the place of a later one. -/
theorem plan_predicts_iff : Predicted exporter disk request
    (ExporterManager.plan exporter disk request fun _ n => n) (ExporterManager.start exporter disk request) ↔
      Refused exporter disk request ∨ Undisturbed exporter disk request := by
  by_cases hrefused : Refused exporter disk request
  · obtain ⟨error, hplan, hstart⟩ := plan_refused exporter disk request hrefused
    rw [hplan, hstart]
    exact ⟨fun _ => .inl hrefused, fun _ => .refused error⟩
  · exact ⟨fun hpredicted => .inr (undisturbed_of_predicted exporter disk request hrefused hpredicted),
      fun h => predicted_of_undisturbed exporter disk request hrefused (h.resolve_left hrefused)⟩

end Claim

/-- Records at 2000-01-01 11:30 and 2000-01-11 01:30, exported by the hour under `{H}{d}`. -/
def elevens : Registered Text Int where
  period := .hour
  path start := hourlyName (start.getD EPOCH) ++ ".csv".toList
  time := id
  records := [EPOCH + 23 * (HOUR / 2), EPOCH + 10 * DAY + 3 * (HOUR / 2)]

/-- From the first hour to the end of the second. -/
def elevensRequest : Request where
  after := EPOCH + 11 * HOUR
  before := some (EPOCH + 10 * DAY + 2 * HOUR)
  now := EPOCH + 11 * DAY
  onConflict := .overwrite
  rangeMode := .expand

/-- The plan creates a file for either hour; the run has the second overwrite the first. -/
theorem second_hour_kept : hourly.check root = .ok () ∧
    (∀ start, hourly.file root (some start) = .ok (elevens.path (some start))) ∧
    ¬ Predicted elevens (fun _ => none) elevensRequest
      (ExporterManager.plan elevens (fun _ => none) elevensRequest fun _ n => n)
      (ExporterManager.start elevens (fun _ => none) elevensRequest) := by
  refine ⟨hourly_check, hourly_file, fun hpredicted => ?_⟩
  have hrefused : ¬ Refused elevens (fun _ => none) elevensRequest := by
    rintro (hrange | ⟨hmode, -⟩)
    · exact absurd hrange (by decide)
    · cases hmode
  have hapart := undisturbed_of_predicted elevens (fun _ => none) elevensRequest hrefused hpredicted
  have hfirst : (elevens.files elevensRequest)[0]? = some (⟨some (EPOCH + 11 * HOUR), some (EPOCH + 12 * HOUR)⟩,
      ⟨some (EPOCH + 11 * HOUR), some (EPOCH + 12 * HOUR)⟩) := by decide
  have hsecond : ((elevens.files elevensRequest)[230]?.map fun file => file.1.after) =
      some (some (EPOCH + 10 * DAY + HOUR)) := by decide
  obtain ⟨later, hlater, hafter⟩ := Option.map_eq_some_iff.mp hsecond
  obtain ⟨hzero, hfile⟩ := List.getElem?_eq_some_iff.mp hfirst
  obtain ⟨hlast, hfound⟩ := List.getElem?_eq_some_iff.mp hlater
  have hclash := List.pairwise_iff_getElem.mp hapart 0 230 hzero hlast (by omega)
  rw [hfile, hfound] at hclash
  have hplace : hourlyName (EPOCH + 11 * HOUR) = hourlyName (EPOCH + 10 * DAY + HOUR) := by decide
  have hrecords := hclash (by
    unfold Registered.place elevens
    rw [hafter]
    exact congrArg (· ++ ".csv".toList) hplace)
  exact absurd hrecords (by decide)

end Ceres.Exporter.Plan
