/-
  File:      Ceres/Exporter/Runs.lean
  Subject:   OVERWRITING EXPORT RUNS (`exporter.py`: `ExporterManager.__export`, `__export_file`,
             `__history`) beside a database that is written and pruned.

  A run reads the history once and then decides about one file after the other. Stores and prunes
  happen at any time; runs follow one another under the exporter's lock.

  * `exportFile` -- one file of a run; `step` -- the system;
  * `licences` -- the files still to come that the run will write again if the database has records
    for them; `Calm` -- no prune takes a record from under one of them, and no store slips a record
    in that makes the history look longer than it is;
  * **`overwrite_keeps_records`** -- along calm steps no record is lost;
  * `overwrite_loses_record` -- a prune between the reading of the history and the writing of the file.
-/
import Ceres.Exporter.Archive
import Ceres.Library.Run

namespace Ceres.Exporter.Runs

open Ceres.Library Archive

variable {ρ : Type} (time : ρ → Int)

/-! ## 1. One file -/

/-- Write, keep or remove one file; the records it wrote, or of a kept file whether it left any
    out. -/
def exportFile (A : Archive ρ) (onConflict : ExportConflict) (whole selected : ExportSpan)
    (history : Option Int) : Except (List (Option Int)) (Archive ρ × ExportFileAction × Nat) :=
  let records := A.query time selected
  match onConflict.decide whole.after (A.file whole.after).isSome (!records.isEmpty)
      (decide (whole ≠ selected)) (beforeHistory whole history) with
  | .error paths => .error paths
  | .ok (.create, _) => .ok (A.write whole.after records, .create, records.length)
  | .ok (.overwrite, _) => .ok (A.write whole.after records, .overwrite, records.length)
  | .ok (.remove, _) => .ok (A.remove whole.after, .remove, 0)
  | .ok (.keep, _) => .ok (A, .keep, if records.isEmpty then 0 else 1)
  | .ok (.none, _) => .ok (A, .none, if records.isEmpty then 0 else 1)

/-- What an overwriting run does with a file: nothing, or it writes the selected records, of which
    there are some, where no file was or where the guard let it. -/
theorem exportFile_overwrite {A A' : Archive ρ} {whole selected : ExportSpan}
    {history : Option Int} {action : ExportFileAction} {count : Nat}
    (h : exportFile time A .overwrite whole selected history = .ok (A', action, count)) :
    A' = A ∨ A' = A.write whole.after (A.query time selected) ∧ A.query time selected ≠ [] ∧
      (A.file whole.after = none ∨ whole = selected ∧ beforeHistory whole history = false) := by
  unfold exportFile ExportConflict.decide at h
  by_cases hfile : A.file whole.after = none
  · by_cases hrec : A.query time selected = []
    · simp [hfile, hrec] at h
      exact .inl h.1.symm
    · simp [hfile, hrec] at h
      exact .inr ⟨h.1.symm, hrec, .inl hfile⟩
  · have hsome : (A.file whole.after).isSome = true := Option.isSome_iff_ne_none.mpr hfile
    by_cases hrec : A.query time selected = []
    · simp [hsome, hrec] at h
      exact .inl h.1.symm
    · by_cases hpart : whole = selected
      · subst hpart
        by_cases hbefore : beforeHistory whole history = true
        · simp [hsome, hrec, hbefore] at h
          exact .inl h.1.symm
        · simp [hsome, hrec, hbefore] at h
          exact .inr ⟨h.1.symm, hrec, .inr ⟨rfl, by simpa using hbefore⟩⟩
      · simp [hsome, hrec, hpart] at h
        exact .inl h.1.symm

/-! ## 2. The system -/

/-- A run under the lock: the history it read, and the files still to come. -/
structure Run where
  history : Option Int
  rest : List (ExportSpan × ExportSpan)
  deriving DecidableEq

structure State (ρ : Type) where
  archive : Archive ρ
  running : Option Run

def State.initial : State ρ := ⟨Archive.empty, none⟩

inductive Action (ρ : Type) where
  /-- The writer stores records. -/
  | store (records : List ρ)
  /-- Records older than the cutoff are pruned. -/
  | prune (cutoff : Int)
  /-- A run over `[after, before)` takes the lock and reads the history. -/
  | start (mode : ExportRangeMode) (after before : Int)
  /-- The run does its next file. -/
  | file
  /-- The run ends: completed, failed or cancelled. -/
  | finish

/-- A run takes the lock: it reads the history and has all its files to come. -/
def State.start (period : ExporterPeriod) (s : State ρ) (mode : ExportRangeMode)
    (after before : Int) : Option (State ρ) :=
  if s.running = none ∧ after < before then
    some ⟨s.archive, some ⟨s.archive.history time, runFiles period mode after before⟩⟩
  else none

/-- The run does its next file; an error ends it. -/
def State.file (s : State ρ) : Option (State ρ) :=
  match s.running with
  | some ⟨history, (whole, selected) :: rest⟩ =>
    match exportFile time s.archive .overwrite whole selected history with
    | .ok (archive, _, _) => some { archive, running := some ⟨history, rest⟩ }
    | .error _ => some { s with running := none }
  | _ => none

def step (period : ExporterPeriod) (s : State ρ) : Action ρ → Option (State ρ)
  | .store records => some { s with archive := s.archive.store records }
  | .prune cutoff => some { s with archive := s.archive.prune time cutoff }
  | .start mode after before => s.start time period mode after before
  | .file => s.file time
  | .finish => s.running.map fun _ => { s with running := none }

/-! ## 3. Calm steps -/

/-- The files to come that the run will write again whatever happens to the database. -/
def Run.licences (r : Run) : List ExportSpan :=
  (r.rest.filter fun f => f.1 = f.2 ∧ beforeHistory f.1 r.history = false).map Prod.fst

def State.licences (s : State ρ) : List ExportSpan :=
  match s.running with
  | none => []
  | some r => r.licences

/-- The steps that cannot lead to a loss: stores and prunes that keep clear of what only the files
    hold. -/
def Calm (s : State ρ) : Action ρ → Prop
  | .store records => StoreOk time s.archive s.licences records
  | .prune cutoff => PruneOk time s.archive s.licences cutoff
  | _ => True

instance [DecidableEq ρ] (s : State ρ) (a : Action ρ) : Decidable (Calm time s a) := by
  cases a <;> unfold Calm <;> infer_instance

/-- The invariant of the system. -/
structure Inv (s : State ρ) : Prop where
  sound : Sound time s.archive s.licences
  /-- What is selected of a file to come starts no earlier than the file. -/
  within : ∀ r ∈ s.running, ∀ f ∈ r.rest, Starts f

variable {time} {period : ExporterPeriod}

theorem inv_initial : Inv time (State.initial : State ρ) :=
  ⟨sound_empty, by simp [State.initial]⟩

theorem runFiles_starts (mode : ExportRangeMode) (after before : Int) :
    ∀ f ∈ runFiles period mode after before, Starts f := by
  intro f hf
  unfold runFiles at hf
  cases hspan : effectiveSpan period mode after before with
  | none => simp [hspan] at hf
  | some span =>
    rw [hspan] at hf
    exact spanFiles_within period span f hf

/-- The files a run may write again are licensed by the history it reads. -/
theorem sound_licences {A : Archive ρ} (h : Sound time A []) (files : List (ExportSpan × ExportSpan)) :
    Sound time A (Run.licences ⟨A.history time, files⟩) := by
  have hall := h.license_all (Run.licences ⟨A.history time, files⟩) ?_
  · rwa [List.append_nil] at hall
  · intro whole hwhole
    obtain ⟨f, hf, rfl⟩ := List.mem_map.mp hwhole
    exact (of_decide_eq_true (List.mem_filter.mp hf).2).2

variable {s s' : State ρ}

theorem start_eq_some {mode : ExportRangeMode} {after before : Int}
    (h : s.start time period mode after before = some s') :
    s' = ⟨s.archive, some ⟨s.archive.history time, runFiles period mode after before⟩⟩ := by
  unfold State.start at h
  split at h
  · exact (Option.some.inj h).symm
  · simp at h

/-- The file a run does next, as its step leaves the archive. -/
theorem file_cases (h : s.file time = some s') :
    ∃ history whole selected rest, s.running = some ⟨history, (whole, selected) :: rest⟩ ∧
      (∀ r ∈ s'.running, r = ⟨history, rest⟩) ∧
      (s'.archive = s.archive ∨ s'.archive = s.archive.write whole.after (s.archive.query time selected) ∧
        s.archive.query time selected ≠ [] ∧
        (s.archive.file whole.after = none ∨ whole = selected ∧ beforeHistory whole history = false)) := by
  unfold State.file at h
  split at h
  · rename_i history whole selected rest hrun
    refine ⟨history, whole, selected, rest, hrun, ?_⟩
    split at h
    · rename_i archive action count hfile
      obtain rfl := Option.some.inj h
      exact ⟨by simp, exportFile_overwrite time hfile⟩
    · obtain rfl := Option.some.inj h
      exact ⟨by simp, .inl rfl⟩
  · simp at h

/-- A file's licence goes when the run has done it. -/
theorem licences_rest {history : Option Int} {f : ExportSpan × ExportSpan}
    {rest : List (ExportSpan × ExportSpan)} (hrun : s.running = some ⟨history, f :: rest⟩)
    (hrest : ∀ r ∈ s'.running, r = ⟨history, rest⟩) : ∀ whole ∈ s'.licences, whole ∈ s.licences := by
  intro whole hwhole
  unfold State.licences at *
  cases hrun' : s'.running with
  | none => simp [hrun'] at hwhole
  | some r =>
    rw [hrun', hrest r hrun'] at hwhole
    obtain ⟨g, hg, rfl⟩ := List.mem_map.mp hwhole
    obtain ⟨hmem, hguard⟩ := List.mem_filter.mp hg
    rw [hrun]
    exact List.mem_map_of_mem (List.mem_filter.mpr ⟨List.mem_cons_of_mem _ hmem, hguard⟩)

/-- **A calm step keeps the invariant.** -/
theorem step_inv {a : Action ρ} (hI : Inv time s) (hok : Calm time s a)
    (h : step time period s a = some s') : Inv time s' := by
  cases a with
  | store records =>
    obtain rfl := Option.some.inj h
    exact ⟨hI.sound.store hok, hI.within⟩
  | prune cutoff =>
    obtain rfl := Option.some.inj h
    exact ⟨hI.sound.prune hok, hI.within⟩
  | start mode after before =>
    rw [start_eq_some h]
    refine ⟨sound_licences (hI.sound.mono (by simp)) _, ?_⟩
    intro r hr f hf
    obtain rfl := Option.some.inj hr
    exact runFiles_starts mode after before f hf
  | file =>
    obtain ⟨history, whole, selected, rest, hrun, hrest, hcase⟩ := file_cases h
    have hsound := hI.sound.mono (licences_rest hrun hrest)
    have hwithin : ∀ r ∈ s'.running, ∀ f ∈ r.rest, Starts f := by
      intro r hr f hf
      rw [hrest r hr] at hf
      exact hI.within _ hrun f (List.mem_cons_of_mem _ hf)
    rcases hcase with hsame | ⟨hwrite, -, -⟩
    · exact ⟨hsame ▸ hsound, hwithin⟩
    · refine ⟨hwrite ▸ hsound.write (fun x hx => (mem_query.mp hx).1) ?_, hwithin⟩
      intro x hx a ha
      exact hI.within _ hrun _ List.mem_cons_self a ha _ (mem_query.mp hx).2
  | finish =>
    obtain ⟨r, -, rfl⟩ := Option.map_eq_some_iff.mp h
    exact ⟨hI.sound.mono (by simp [State.licences]), by simp⟩

/-- In a state the invariant holds in, no step takes from a file what only the file holds. -/
theorem step_keeps {a : Action ρ} (hI : Inv time s)
    (h : step time period s a = some s') : KeepsRecords s.archive s'.archive := by
  cases a with
  | store records =>
    obtain rfl := Option.some.inj h
    exact keepsRecords_of_held fun _ => rfl
  | prune cutoff =>
    obtain rfl := Option.some.inj h
    exact keepsRecords_of_held fun _ => rfl
  | start mode after before =>
    rw [start_eq_some h]
    exact keepsRecords_of_held fun _ => rfl
  | file =>
    obtain ⟨history, whole, selected, rest, hrun, -, hcase⟩ := file_cases h
    rcases hcase with hsame | ⟨hwrite, hsome, hmissing | ⟨rfl, hguard⟩⟩
    · exact keepsRecords_of_held fun _ => by rw [hsame]
    · rw [hwrite]
      apply keepsRecords_write
      simp [Archive.held, hmissing]
    · -- the guard passed, so the file is under licence; there are records to write
      obtain ⟨y, hy⟩ := List.exists_mem_of_ne_nil _ hsome
      obtain ⟨hdb, hin⟩ := mem_query.mp hy
      rw [hwrite]
      refine hI.sound.keeps_write ?_ hdb hin _
      rw [State.licences, hrun]
      exact List.mem_map.mpr ⟨(whole, whole), by simp [hguard], rfl⟩
  | finish =>
    obtain ⟨r, -, rfl⟩ := Option.map_eq_some_iff.mp h
    exact keepsRecords_of_held fun _ => rfl

/-- **Overwriting runs lose no archived record** along calm stores and prunes: whatever the ranges,
    the range modes and the interleaving, a record leaves a file only while the database holds it. -/
theorem overwrite_keeps_records (period : ExporterPeriod) (actions : List (Action ρ)) (s : State ρ)
    (hok : Along (step time period) (Calm time) State.initial actions)
    (hrun : run (step time period) State.initial actions = some s)
    (a : Action ρ) (s' : State ρ) (h : step time period s a = some s') :
    KeepsRecords s.archive s'.archive :=
  step_keeps (run_inv (fun _ _ _ hI hok h => step_inv hI hok h) actions _ s inv_initial hok hrun) h

/-- An hour is archived and written again with a newer record; its first record is pruned after that
    run, and the next one finds the database's history behind the start of the file. -/
def pruneAfterRun : List (Action Int) :=
  [.store [0, 5], .start .expand 0 10, .file, .finish, .store [7], .start .exact 0 3600000000, .file,
    .finish, .prune 3, .start .shrink (-1) 3600000001]

theorem overwrite_keeps_records_pruneAfterRun :
    ∃ s s', run (step id .hour) State.initial pruneAfterRun = some s ∧
      s.archive.db = [5, 7] ∧ s.archive.held (some 0) = [0, 5, 7] ∧
      step id .hour s .file = some s' ∧ KeepsRecords s.archive s'.archive := by
  have hok : Along (step id .hour) (Calm id) State.initial pruneAfterRun := by decide
  refine ⟨_, _, rfl, rfl, rfl, rfl, ?_⟩
  exact overwrite_keeps_records .hour pruneAfterRun _ hok rfl .file _ rfl

/-- Two records of an hour are archived; the second run has read the history when the older of them
    is pruned. -/
def pruneInRun : List (Action Int) :=
  [.store [0, 5], .start .expand 0 10, .file, .finish, .start .expand 0 10, .prune 3]

theorem overwrite_loses_record :
    ¬ ∀ (period : ExporterPeriod) (actions : List (Action Int)) (s : State Int),
      run (step id period) State.initial actions = some s → ∀ (a : Action Int) (s' : State Int),
        step id period s a = some s' → KeepsRecords s.archive s'.archive := by
  intro h
  have hrun : run (step id .hour) State.initial pruneInRun =
      some ⟨⟨[5], [(some 0, [0, 5])]⟩,
        some ⟨some 0, [(⟨some 0, some 3600000000⟩, ⟨some 0, some 3600000000⟩)]⟩⟩ := rfl
  have hstep : step id .hour ⟨⟨[5], [(some 0, [0, 5])]⟩,
      some ⟨some 0, [(⟨some 0, some 3600000000⟩, ⟨some 0, some 3600000000⟩)]⟩⟩ .file =
      some ⟨⟨[5], [(some 0, [5])]⟩, some ⟨some 0, []⟩⟩ := rfl
  have hkeep := h .hour pruneInRun _ hrun .file _ hstep (some 0) 0 (by decide) (by decide)
  exact absurd hkeep (by decide)

end Ceres.Exporter.Runs
