/-
  File:      Ceres/Exporter/WholeFile.lean
  Subject:   A LIVE EXPORTER OF A WHOLE-FILE FORMAT (`exporter.py`: `__live_loop`, `__check_start`,
             `__write_whole`, `__write_live`, `__write_period_live` for a writer that cannot append).

  A wake writes the whole file of each period it was notified of, when it finds evidence that this
  loses nothing: the file is missing, the period is owned, or the history reaches back. Between the
  evidence and the write the database may change, so a period is two steps: `look` and `write`.

  * `Manager`, `step` -- the system, with stores and their notifications, prunes, restarts and
    failures;
  * `Manager.licences` -- the periods whose file will be written without new evidence: those owned,
    the one being written, and those a check at the start cleared by the history it read;
  * **`live_keeps_records`** -- along calm stores and prunes no archived record is lost;
  * `live_loses_record` -- a prune inside an owned period.
-/
import Ceres.Exporter.Archive
import Ceres.Exporter.Live
import Ceres.Library.Run

namespace Ceres.Exporter.WholeFile

open Ceres.Library Archive

variable {ρ : Type} (key : ρ → ExportKey) (period : ExporterPeriod)

/-- A record's timestamp. -/
def stamp (r : ρ) : Int := (key r).timestamp

/-! ## 1. Writing a period -/

/-- Write a period's file from the stored records, leaving it as it is when there are none. -/
def writeWhole (A : Archive ρ) (whole : ExportSpan) (through : Option Int) : Archive ρ :=
  let records := A.query (stamp key) (whole.through through)
  if records.isEmpty then A else A.write whole.after records

/-- What `writeWhole` does: nothing, or it writes stored records of the range, of which there are
    some. -/
theorem writeWhole_cases (A : Archive ρ) (whole : ExportSpan) (through : Option Int) :
    writeWhole key A whole through = A ∨
      ∃ records y, writeWhole key A whole through = A.write whole.after records ∧ y ∈ records ∧
        ∀ x ∈ records, x ∈ A.db ∧ whole.holds (stamp key x) = true := by
  unfold writeWhole
  simp only
  split
  · exact .inl rfl
  · rename_i hsome
    have hne : A.query (stamp key) (whole.through through) ≠ [] := by simpa using hsome
    obtain ⟨y, hy⟩ := List.exists_mem_of_ne_nil _ hne
    refine .inr ⟨_, y, rfl, hy, fun x hx => ?_⟩
    obtain ⟨hdb, hin⟩ := mem_query.mp hx
    exact ⟨hdb, ExportSpan.holds_of_through hin⟩

/-! ## 2. The system -/

/-- What the live loop is doing. -/
inductive Task where
  | idle
  /-- The check at the start: its moment, the history it read, the periods still to come. -/
  | checking (started : Int) (history : Option Int) (rest : List Int)
  /-- A wake: the periods it took and those still to come. -/
  | waking (written rest : List Int)

structure Manager where
  live : Live
  task : Task
  /-- The period whose file is about to be written, and the end of the records for it. -/
  writing : Option (Int × Option Int)

structure State (ρ : Type) where
  archive : Archive ρ
  manager : Option Manager

def State.initial : State ρ := ⟨Archive.empty, none⟩

inductive Action (ρ : Type) where
  /-- The writer stores records and notifies the exporter. -/
  | store (records : List ρ)
  | prune (cutoff : Int)
  /-- The manager stops; whatever it was doing is cancelled. -/
  | stop
  | restart
  /-- The check at the start reads the newest record and the history. -/
  | check (started : Int)
  /-- A wake takes the pending ranges. -/
  | wake
  /-- The evidence for the next period. -/
  | look
  /-- The write it allowed. -/
  | write
  /-- The check or the wake is through with its periods. -/
  | finish (now : Int)
  /-- The check or the wake raises, and its ranges wait again. -/
  | fail

/-- The evidence for the next period of a check or a wake. -/
def Manager.look (A : Archive ρ) (m : Manager) : Option Manager :=
  match m.writing, m.task with
  | none, .checking started history (start :: rest) =>
    let whole := bounds period start
    if (A.file whole.after).isNone then
      some ⟨m.live.own start, .checking started history rest, some (start, some started)⟩
    else if beforeHistory whole history = false then
      some ⟨m.live, .checking started history rest, some (start, some started)⟩
    else if (A.query (stamp key) ⟨whole.after, some started⟩).isEmpty then
      some ⟨m.live, .checking started history rest, none⟩
    else some ⟨m.live.warnLate start, .checking started history rest, none⟩
  | none, .waking written (start :: rest) =>
    let whole := bounds period start
    if (A.file whole.after).isNone ∨ start ∈ m.live.owned ∨
        beforeHistory whole (A.history (stamp key)) = false then
      some ⟨m.live.own start, .waking written rest, some (start, none)⟩
    else
      let live := m.live.warnLate start
      some ⟨{ live with working := live.working.erase start }, .waking written rest, none⟩
  | _, _ => none

/-- The end of a check or a wake. -/
def Manager.finish (m : Manager) (now : Int) : Option Manager :=
  match m.writing, m.task with
  | none, .checking _ _ [] => some ⟨{ m.live with checked := true }, .idle, none⟩
  | none, .waking written [] => some ⟨m.live.keep (written ++ [periodStart period now]), .idle, none⟩
  | _, _ => none

/-- The check at the start, begun. -/
def Manager.check (A : Archive ρ) (m : Manager) (started : Int) : Option Manager :=
  match m.task, m.live.checked with
  | .idle, false =>
    let newest := (A.db.map (stamp key)).max?
    some ⟨m.live, .checking started (A.history (stamp key)) (checkedStarts period started newest),
      m.writing⟩
  | _, _ => none

/-- A wake, begun: its periods in order. -/
def Manager.wake (m : Manager) : Option Manager :=
  match m.task, m.live.checked with
  | .idle, true =>
    if m.live.pending = [] then none
    else
      let written := m.live.pending.keys.insertionSort (· ≤ ·)
      some ⟨m.live.take, .waking written written, m.writing⟩
  | _, _ => none

def Manager.fail (m : Manager) : Manager := ⟨m.live.restore, .idle, none⟩

def step (s : State ρ) : Action ρ → Option (State ρ)
  | .store records =>
    some ⟨s.archive.store records,
      s.manager.map fun m => { m with live := m.live.notify period (records.map key) }⟩
  | .prune cutoff => some { s with archive := s.archive.prune (stamp key) cutoff }
  | .stop => some { s with manager := none }
  | .restart => some { s with manager := some ⟨Live.fresh, .idle, none⟩ }
  | .check started =>
    s.manager.bind fun m => (m.check key period s.archive started).map fun m => ⟨s.archive, some m⟩
  | .wake => s.manager.bind fun m => m.wake.map fun m => ⟨s.archive, some m⟩
  | .look => s.manager.bind fun m => (m.look key period s.archive).map fun m => ⟨s.archive, some m⟩
  | .write =>
    s.manager.bind fun m => m.writing.map fun w =>
      ⟨writeWhole key s.archive (bounds period w.1) w.2,
        some ⟨{ m.live with working := m.live.working.erase w.1 }, m.task, none⟩⟩
  | .finish now => s.manager.bind fun m => (m.finish period now).map fun m => ⟨s.archive, some m⟩
  | .fail => s.manager.map fun m => ⟨s.archive, some m.fail⟩

/-! ## 3. Calm steps -/

/-- The periods a check still has before it that the history it read clears. -/
def Task.cleared : Task → List ExportSpan
  | .checking _ history rest =>
    (rest.map (bounds period)).filter fun whole => beforeHistory whole history = false
  | _ => []

/-- The files that will be written without new evidence. -/
def Manager.licences (m : Manager) : List ExportSpan :=
  (m.live.owned ++ m.writing.toList.map Prod.fst).map (bounds period) ++ m.task.cleared period

def State.licences (s : State ρ) : List ExportSpan :=
  match s.manager with
  | none => []
  | some m => m.licences period

/-- The steps that cannot lead to a loss: stores and prunes that keep clear of what only the files
    hold. -/
def Calm (s : State ρ) : Action ρ → Prop
  | .store records => StoreOk (stamp key) s.archive (s.licences period) records
  | .prune cutoff => PruneOk (stamp key) s.archive (s.licences period) cutoff
  | _ => True

instance [DecidableEq ρ] (s : State ρ) (a : Action ρ) : Decidable (Calm key period s a) := by
  cases a <;> unfold Calm <;> infer_instance

/-- The invariant of the system. -/
def Inv (s : State ρ) : Prop := Sound (stamp key) s.archive (s.licences period)

variable {key period}

theorem mem_licences {m : Manager} {whole : ExportSpan} :
    whole ∈ m.licences period ↔ (∃ start ∈ m.live.owned, bounds period start = whole) ∨
      (∃ w ∈ m.writing, bounds period w.1 = whole) ∨ whole ∈ m.task.cleared period := by
  cases hw : m.writing with
  | none => simp [Manager.licences, hw]
  | some w =>
    simp only [Manager.licences, hw, List.mem_append, List.mem_map, Option.toList_some, List.mem_singleton,
      Option.mem_def, Option.some.injEq]
    constructor
    · rintro (⟨start, hstart | ⟨v, rfl, rfl⟩, rfl⟩ | h)
      · exact .inl ⟨start, hstart, rfl⟩
      · exact .inr (.inl ⟨v, rfl, rfl⟩)
      · exact .inr (.inr h)
    · rintro (⟨start, hstart, rfl⟩ | ⟨v, rfl, rfl⟩ | h)
      · exact .inl ⟨start, .inl hstart, rfl⟩
      · exact .inl ⟨_, .inr ⟨_, rfl, rfl⟩, rfl⟩
      · exact .inr h

variable {m m' : Manager}

/-- The licences of a manager that owns, writes and clears no other periods, `start` apart. -/
theorem licences_sub (start : Int) (howned : ∀ other ∈ m'.live.owned, other = start ∨ other ∈ m.live.owned)
    (hwriting : ∀ w ∈ m'.writing, w.1 = start ∨ w ∈ m.writing)
    (htask : ∀ whole ∈ m'.task.cleared period, whole ∈ m.task.cleared period) :
    ∀ whole ∈ m'.licences period, whole ∈ bounds period start :: m.licences period := by
  intro whole hwhole
  rw [List.mem_cons, mem_licences]
  rcases mem_licences.mp hwhole with ⟨other, hother, rfl⟩ | ⟨w, hw, rfl⟩ | h
  · rcases howned other hother with rfl | hmem
    · exact .inl rfl
    · exact .inr (.inl ⟨other, hmem, rfl⟩)
  · rcases hwriting w hw with rfl | hmem
    · exact .inl rfl
    · exact .inr (.inr (.inl ⟨w, hmem, rfl⟩))
  · exact .inr (.inr (.inr (htask whole h)))

theorem licences_mono (howned : ∀ start ∈ m'.live.owned, start ∈ m.live.owned)
    (hwriting : ∀ w ∈ m'.writing, w ∈ m.writing)
    (htask : ∀ whole ∈ m'.task.cleared period, whole ∈ m.task.cleared period) :
    ∀ whole ∈ m'.licences period, whole ∈ m.licences period := by
  intro whole hwhole
  rw [mem_licences] at *
  rcases hwhole with ⟨start, hstart, rfl⟩ | ⟨w, hw, rfl⟩ | h
  · exact .inl ⟨start, howned start hstart, rfl⟩
  · exact .inr (.inl ⟨w, hwriting w hw, rfl⟩)
  · exact .inr (.inr (htask whole h))

theorem cleared_rest {started : Int} {history : Option Int} {start : Int} {rest : List Int} :
    ∀ whole ∈ (Task.checking started history rest).cleared period,
      whole ∈ (Task.checking started history (start :: rest)).cleared period := by
  intro whole hwhole
  obtain ⟨hmem, hclear⟩ := List.mem_filter.mp hwhole
  exact List.mem_filter.mpr ⟨List.mem_cons_of_mem _ hmem, hclear⟩

variable {A : Archive ρ}

/-- Evidence for a period: its file is missing, it is under licence, or the history clears it. -/
theorem sound_evidence {licences : List ExportSpan} {whole : ExportSpan} (h : Sound (stamp key) A licences)
    (hevidence : (A.file whole.after).isNone ∨ whole ∈ licences ∨
      beforeHistory whole (A.history (stamp key)) = false) : Sound (stamp key) A (whole :: licences) := by
  rcases hevidence with hmissing | hlicence | hhistory
  · refine h.license_missing ?_
    simp [Archive.held, Option.isNone_iff_eq_none.mp hmissing]
  · refine h.mono fun other hother => ?_
    rcases List.mem_cons.mp hother with rfl | hother
    · exact hlicence
    · exact hother
  · exact h.license hhistory

/-- **A look keeps the invariant**: it allows a period only with evidence. -/
theorem sound_look (h : Sound (stamp key) A (m.licences period))
    (hlook : m.look key period A = some m') : Sound (stamp key) A (m'.licences period) := by
  unfold Manager.look at hlook
  split at hlook
  · rename_i started history start rest hwriting htask
    have hrest : ∀ whole ∈ (Task.checking started history rest).cleared period,
        whole ∈ m.task.cleared period := htask ▸ cleared_rest
    simp only at hlook
    split at hlook
    · rename_i hmissing
      obtain rfl := Option.some.inj hlook
      refine (sound_evidence h (.inl hmissing)).mono (licences_sub start ?_ (by simp) hrest)
      exact fun other hother => Live.mem_owned_own.mp hother
    · split at hlook
      · rename_i hclear
        obtain rfl := Option.some.inj hlook
        have hlicence : bounds period start ∈ m.licences period := by
          refine mem_licences.mpr (.inr (.inr ?_))
          rw [htask]
          exact List.mem_filter.mpr ⟨List.mem_cons_self, by simpa using hclear⟩
        refine (sound_evidence h (.inr (.inl hlicence))).mono
          (licences_sub start (fun _ hother => .inr hother) (by simp) hrest)
      · split at hlook
        · obtain rfl := Option.some.inj hlook
          exact h.mono (licences_mono (fun _ hstart => hstart) (by simp) hrest)
        · obtain rfl := Option.some.inj hlook
          exact h.mono (licences_mono (by simp) (by simp) hrest)
  · rename_i written start rest hwriting htask
    simp only at hlook
    split at hlook
    · rename_i hevidence
      obtain rfl := Option.some.inj hlook
      have hwhole : (A.file (bounds period start).after).isNone ∨
          bounds period start ∈ m.licences period ∨
          beforeHistory (bounds period start) (A.history (stamp key)) = false := by
        refine hevidence.imp_right (Or.imp_left fun howned => ?_)
        exact mem_licences.mpr (.inl ⟨start, howned, rfl⟩)
      refine (sound_evidence h hwhole).mono (licences_sub start ?_ (by simp) (by simp [Task.cleared]))
      exact fun other hother => Live.mem_owned_own.mp hother
    · obtain rfl := Option.some.inj hlook
      exact h.mono (licences_mono (by simp) (by simp) (by simp [Task.cleared]))
  · simp at hlook

theorem sound_finish {now : Int} (h : Sound (stamp key) A (m.licences period))
    (hfinish : m.finish period now = some m') : Sound (stamp key) A (m'.licences period) := by
  unfold Manager.finish at hfinish
  split at hfinish
  · obtain rfl := Option.some.inj hfinish
    exact h.mono (licences_mono (fun _ hstart => hstart) (by simp) (by simp [Task.cleared]))
  · obtain rfl := Option.some.inj hfinish
    refine h.mono (licences_mono ?_ (by simp) (by simp [Task.cleared]))
    exact fun start hstart => (List.mem_filter.mp hstart).1
  · simp at hfinish

theorem sound_check {started : Int} (h : Sound (stamp key) A (m.licences period))
    (hcheck : m.check key period A started = some m') : Sound (stamp key) A (m'.licences period) := by
  unfold Manager.check at hcheck
  split at hcheck
  · obtain rfl := Option.some.inj hcheck
    have hall : Sound (stamp key) A ((Task.checking started (A.history (stamp key))
        (checkedStarts period started (A.db.map (stamp key)).max?)).cleared period ++
          m.licences period) :=
      h.license_all _ fun whole hwhole => of_decide_eq_true (List.mem_filter.mp hwhole).2
    refine hall.mono fun whole hwhole => ?_
    rw [List.mem_append, mem_licences]
    rcases mem_licences.mp hwhole with howned | hw | hclear
    · exact .inr (.inl howned)
    · exact .inr (.inr (.inl hw))
    · exact .inl hclear
  · simp at hcheck

theorem sound_wake (h : Sound (stamp key) A (m.licences period))
    (hwake : m.wake = some m') : Sound (stamp key) A (m'.licences period) := by
  unfold Manager.wake at hwake
  split at hwake
  · split at hwake
    · simp at hwake
    · obtain rfl := Option.some.inj hwake
      exact h.mono (licences_mono (fun _ hstart => hstart) (fun _ hw => hw) (by simp [Task.cleared]))
  · simp at hwake

theorem sound_writeWhole {licences : List ExportSpan} {start : Int} {through : Option Int}
    (h : Sound (stamp key) A licences) :
    Sound (stamp key) (writeWhole key A (bounds period start) through) licences := by
  rcases writeWhole_cases key A (bounds period start) through with hsame | ⟨records, y, hwrite, -, hrec⟩
  · rw [hsame]
    exact h
  · rw [hwrite]
    refine h.write (fun x hx => (hrec x hx).1) fun x hx a ha => ?_
    have hin := (hrec x hx).2
    rw [ExportSpan.holds, Bool.and_eq_true] at hin
    rw [Option.mem_def.mp ha, Option.all_some, decide_eq_true_eq] at hin
    exact hin.1

/-- **A calm step keeps the invariant.** -/
theorem step_inv {s s' : State ρ} {a : Action ρ} (hI : Inv key period s)
    (hok : Calm key period s a) (h : step key period s a = some s') : Inv key period s' := by
  obtain ⟨A, manager⟩ := s
  unfold Inv at *
  cases manager with
  | none =>
    cases a with
    | store records =>
      obtain rfl := Option.some.inj h
      exact hI.store hok
    | prune cutoff =>
      obtain rfl := Option.some.inj h
      exact hI.prune hok
    | stop =>
      obtain rfl := Option.some.inj h
      exact hI
    | restart =>
      obtain rfl := Option.some.inj h
      exact hI
    | _ => simp [step] at h
  | some m =>
    cases a with
    | store records =>
      obtain rfl := Option.some.inj h
      exact hI.store hok
    | prune cutoff =>
      obtain rfl := Option.some.inj h
      exact hI.prune hok
    | stop =>
      obtain rfl := Option.some.inj h
      exact hI.mono (by simp [State.licences])
    | restart =>
      obtain rfl := Option.some.inj h
      exact hI.mono (by simp [State.licences, Manager.licences, Live.fresh, Task.cleared])
    | check started =>
      obtain ⟨m', hm', rfl⟩ := Option.map_eq_some_iff.mp h
      exact sound_check hI hm'
    | wake =>
      obtain ⟨m', hm', rfl⟩ := Option.map_eq_some_iff.mp h
      exact sound_wake hI hm'
    | look =>
      obtain ⟨m', hm', rfl⟩ := Option.map_eq_some_iff.mp h
      exact sound_look hI hm'
    | write =>
      obtain ⟨w, hw, rfl⟩ := Option.map_eq_some_iff.mp h
      refine sound_writeWhole (hI.mono ?_)
      exact licences_mono (fun _ hstart => hstart) (by simp) (fun _ hclear => hclear)
    | finish now =>
      obtain ⟨m', hm', rfl⟩ := Option.map_eq_some_iff.mp h
      exact sound_finish hI hm'
    | fail =>
      obtain rfl := Option.some.inj h
      exact hI.mono (licences_mono (fun _ hstart => hstart) (by simp [Manager.fail])
        (by simp [Manager.fail, Task.cleared]))

/-- The file about to be written is under licence, so no step takes from a file what only the file
    holds. -/
theorem step_keeps {s s' : State ρ} {a : Action ρ} (hI : Inv key period s)
    (h : step key period s a = some s') : KeepsRecords s.archive s'.archive := by
  obtain ⟨A, manager⟩ := s
  have hsame : s'.archive.files = A.files → KeepsRecords A s'.archive := fun hfiles =>
    keepsRecords_of_held fun name => by rw [Archive.held, Archive.file, hfiles]; rfl
  cases manager with
  | none =>
    cases a with
    | store records | prune cutoff | stop | restart =>
      obtain rfl := Option.some.inj h
      exact hsame rfl
    | _ => simp [step] at h
  | some m =>
    cases a with
    | store records | prune cutoff | stop | restart | fail =>
      obtain rfl := Option.some.inj h
      exact hsame rfl
    | check started | wake | look | finish now =>
      obtain ⟨m', -, rfl⟩ := Option.map_eq_some_iff.mp h
      exact hsame rfl
    | write =>
      obtain ⟨w, hw, rfl⟩ := Option.map_eq_some_iff.mp h
      rcases writeWhole_cases key A (bounds period w.1) w.2 with hkeep | ⟨records, y, hwrite, hy, hrec⟩
      · exact hsame (by rw [hkeep])
      · show KeepsRecords A (writeWhole key A (bounds period w.1) w.2)
        rw [hwrite]
        have hlicence : bounds period w.1 ∈ m.licences period := mem_licences.mpr (.inr (.inl ⟨w, hw, rfl⟩))
        exact Sound.keeps_write hI hlicence (hrec y hy).1 (hrec y hy).2 records

theorem inv_initial : Inv key period (State.initial : State ρ) := sound_empty

/-- **A live whole-file exporter loses no archived record** along calm stores and prunes: whatever
    the interleaving with checks, wakes, failures and restarts, a record leaves a file only while the
    database holds it. -/
theorem live_keeps_records (key : ρ → ExportKey) (period : ExporterPeriod)
    (actions : List (Action ρ)) (s : State ρ)
    (hok : Along (step key period) (Calm key period) State.initial actions)
    (hrun : run (step key period) State.initial actions = some s)
    (a : Action ρ) (s' : State ρ) (h : step key period s a = some s') :
    KeepsRecords s.archive s'.archive :=
  step_keeps (run_inv (fun _ _ _ hI hok h => step_inv hI hok h) actions _ s inv_initial hok hrun) h

/-- The key of a record that is its timestamp. -/
def plainKey (t : Int) : ExportKey := ⟨t, 0⟩

/-- A fresh exporter writes the file of the hour it was notified of, and writes it again with a newer
    record; what a prune takes then lies before the hour. -/
def pruneBefore : List (Action Int) :=
  [.store [-1], .restart, .check 1, .look, .write, .look, .write, .finish 1, .store [0, 5], .wake,
    .look, .write, .finish 6, .prune 0, .store [7], .wake, .look]

theorem live_keeps_records_pruneBefore :
    ∃ s s', run (step plainKey .hour) State.initial pruneBefore = some s ∧
      s.archive.db = [0, 5, 7] ∧ s.archive.held (some 0) = [0, 5] ∧
      step plainKey .hour s .write = some s' ∧ s'.archive.held (some 0) = [0, 5, 7] ∧
      s'.archive.held (some (-3600000000)) = [-1] ∧ KeepsRecords s.archive s'.archive := by
  have hok : Along (step plainKey .hour) (Calm plainKey .hour) State.initial pruneBefore := by
    decide
  refine ⟨_, _, rfl, rfl, rfl, rfl, rfl, rfl, ?_⟩
  exact live_keeps_records plainKey .hour pruneBefore _ hok rfl .write _ rfl

/-- The prune reaches into the hour whose file the exporter owns, and the next record of the hour has
    the file written again. -/
def pruneInside : List (Action Int) :=
  [.restart, .check 1, .look, .write, .look, .write, .finish 1, .store [0, 5], .wake, .look, .write,
    .finish 6, .prune 3, .store [7], .wake, .look]

theorem live_loses_record :
    ¬ ∀ (period : ExporterPeriod) (actions : List (Action Int)) (s : State Int),
      run (step plainKey period) State.initial actions = some s →
        ∀ (a : Action Int) (s' : State Int), step plainKey period s a = some s' →
          KeepsRecords s.archive s'.archive := by
  intro h
  have hloss : ∃ s s', run (step plainKey .hour) State.initial pruneInside = some s ∧
      step plainKey .hour s .write = some s' ∧ s.archive.held (some 0) = [0, 5] ∧
      s.archive.db = [5, 7] ∧ s'.archive.held (some 0) = [5, 7] :=
    ⟨_, _, rfl, rfl, rfl, rfl, rfl⟩
  obtain ⟨s, s', hrun, hstep, hbefore, hdb, hafter⟩ := hloss
  have hkeep := h .hour pruneInside s hrun .write s' hstep (some 0) 0 (by rw [hbefore]; decide)
    (by rw [hafter]; decide)
  rw [hdb] at hkeep
  exact absurd hkeep (by decide)

end Ceres.Exporter.WholeFile
