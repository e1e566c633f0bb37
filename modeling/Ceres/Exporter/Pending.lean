/-
  File:      Ceres/Exporter/Pending.lean
  Subject:   THE PENDING EXPORTS FILE (`pending_exports.py`: `drain_pending_exports`;
             `rust/ceres-cli/src/commands/exports.rs`: `export_loaded`).

  A load without a running engine opens the pending file for appending and writes its lines; an engine
  that starts renames the file, reads it, exports what it read and removes it. A file once opened is
  the same file under another name, or under none.

  * `State`, `step` -- files behind their names, loads with an open file, one engine after the other,
    which may stop at any point;
  * `Accounted` -- a line is handed to `export_pending`, or in the pending or the claimed file;
  * `Calm` -- a load writes while its file still has a name, and an engine removes the claimed file
    only as it read it;
  * **`pending_accounted`** -- along calm steps every line written is accounted for;
  * `pending_loses_line` -- a load that writes behind the engine's reading;
  * `pending_drains` -- an engine that is left to itself hands everything over.
-/
import Ceres.Library.Dict
import Ceres.Library.Run

namespace Ceres.Exporter.Pending

open Ceres.Library

variable {ε : Type}

/-! ## 1. The system -/

/-- The two files `drain_pending_exports` goes through. -/
inductive Source where
  | claimed | pending
  deriving DecidableEq

inductive Engine (ε : Type) where
  | test (source : Source)
  | rename
  | read (source : Source)
  | handOver (source : Source) (entries : List ε)
  | unlink (source : Source) (entries : List ε)

/-- A line is the JSON of an entry and validates back to it, so a file is a list of entries. -/
structure State (ε : Type) where
  /-- The files by their number, in the order they were created. -/
  files : List (List ε)
  pending : Option Nat
  claimed : Option Nat
  /-- The file each load has open. -/
  loads : Dict Nat Nat
  engine : Option (Engine ε)
  /-- The lines loads wrote, and the entries engines handed to `export_pending`. -/
  written : List ε
  handed : List ε

def State.initial : State ε := ⟨[], none, none, [], none, [], []⟩

def State.lines (s : State ε) (name : Option Nat) : List ε :=
  (name.bind fun file => s.files[file]?).getD []

inductive Action (ε : Type) where
  /-- A load opens the pending file for appending and creates it when it is missing. -/
  | openFile (load : Nat)
  /-- It writes lines to the file it opened. -/
  | write (load : Nat) (lines : List ε)
  | close (load : Nat)
  /-- An engine starts to drain; another one is not running. -/
  | start
  /-- It takes its next step. -/
  | advance
  | stop

def State.openFile (s : State ε) (load : Nat) : State ε :=
  match s.pending with
  | some file => { s with loads := s.loads.set load file }
  | none =>
    { s with
      files := s.files ++ [[]]
      pending := some s.files.length
      loads := s.loads.set load s.files.length }

def State.write (s : State ε) (file : Nat) (lines : List ε) : State ε :=
  { s with files := s.files.modify file (· ++ lines), written := s.written ++ lines }

/-- The drain after one file: the pending one follows the claimed one. -/
def next : Source → Option (Engine ε)
  | .claimed => some (.test .pending)
  | .pending => none

/-- One step of the drain; what raises ends it. -/
def State.advance (s : State ε) : Engine ε → State ε
  | .test .claimed => { s with engine := if s.claimed.isSome then some (.read .claimed) else next .claimed }
  | .test .pending => { s with engine := if s.pending.isSome then some .rename else next .pending }
  | .rename =>
    if s.pending.isSome then { s with claimed := s.pending, pending := none, engine := some (.read .pending) }
    else { s with engine := none }
  | .read source =>
    if s.claimed.isSome then { s with engine := some (.handOver source (s.lines s.claimed)) }
    else { s with engine := none }
  | .handOver source entries =>
    { s with handed := s.handed ++ entries, engine := some (.unlink source entries) }
  | .unlink source _ => { s with claimed := none, engine := next source }

def step (s : State ε) : Action ε → Option (State ε)
  | .openFile load => some (s.openFile load)
  | .write load lines => (s.loads.get load).map fun file => s.write file lines
  | .close load => some { s with loads := s.loads.erase load }
  | .start => if s.engine.isNone then some { s with engine := some (.test .claimed) } else none
  | .advance => s.engine.map fun engine => s.advance engine
  | .stop => some { s with engine := none }

/-! ## 2. No line is lost -/

/-- What becomes of a line: it is handed over, or in one of the two files. -/
def Accounted (s : State ε) (line : ε) : Prop :=
  line ∈ s.handed ∨ line ∈ s.lines s.pending ∨ line ∈ s.lines s.claimed

/-- What the engine read of the file it is about to remove. -/
def State.unlinking (s : State ε) : Option (List ε) :=
  match s.engine with
  | some (.unlink _ entries) => some entries
  | _ => none

/-- The steps that lose no line: a load writes while the file it opened is still the pending or the
    claimed one, and the engine removes the claimed file only if it has not grown since it was read. -/
def Calm (s : State ε) : Action ε → Prop
  | .write load _ => ∀ file ∈ s.loads.get load, s.pending = some file ∨ s.claimed = some file
  | .advance => ∀ entries ∈ s.unlinking, (s.lines s.claimed).length = entries.length
  | _ => True

instance (s : State ε) (a : Action ε) : Decidable (Calm s a) := by
  cases a <;> unfold Calm <;> infer_instance

/-- What an engine knows: it renames only when nothing is claimed, and what it read is how the claimed
    file starts; it has handed over what it is about to remove. -/
def Engine.Knows (s : State ε) : Engine ε → Prop
  | .test .pending => s.claimed = none
  | .rename => s.claimed = none
  | .handOver _ entries => entries <+: s.lines s.claimed
  | .unlink _ entries => entries <+: s.lines s.claimed ∧ ∀ line ∈ entries, line ∈ s.handed
  | _ => True

structure Inv (s : State ε) : Prop where
  accounted : ∀ line ∈ s.written, Accounted s line
  knows : ∀ engine ∈ s.engine, engine.Knows s
  /-- The names are of files that exist. -/
  named : ∀ file, s.pending = some file ∨ s.claimed = some file → file < s.files.length

theorem inv_initial : Inv (State.initial : State ε) := by
  refine ⟨?_, ?_, ?_⟩ <;> simp [State.initial]

variable {s : State ε}

theorem lines_write_self {file : Nat} {lines : List ε} (h : file < s.files.length) :
    (s.write file lines).lines (some file) = s.lines (some file) ++ lines := by
  simp [State.lines, State.write, List.getElem?_modify, List.getElem?_eq_getElem h]

theorem lines_write_extend {file : Nat} {lines : List ε} (name : Option Nat) :
    s.lines name <+: (s.write file lines).lines name := by
  cases name with
  | none => exact List.prefix_rfl
  | some other =>
    by_cases hother : other < s.files.length
    · by_cases heq : file = other
      · subst heq
        rw [lines_write_self hother]
        exact List.prefix_append _ _
      · have hsame : (s.write file lines).lines (some other) = s.lines (some other) := by
          simp [State.lines, State.write, List.getElem?_modify, heq]
        rw [hsame]
    · have hnone : s.lines (some other) = [] := by
        simp [State.lines, List.getElem?_eq_none (not_lt.mp hother)]
      rw [hnone]
      exact List.nil_prefix

theorem Engine.Knows.mono {s s' : State ε} {engine : Engine ε} (h : engine.Knows s)
    (hclaimed : s'.claimed = s.claimed) (hlines : s.lines s.claimed <+: s'.lines s'.claimed)
    (hhanded : s'.handed = s.handed) : engine.Knows s' := by
  cases engine with
  | test source =>
    cases source with
    | claimed => exact trivial
    | pending => exact hclaimed.trans h
  | rename => exact hclaimed.trans h
  | read source => exact trivial
  | handOver source entries => exact List.IsPrefix.trans h hlines
  | unlink source entries =>
    refine ⟨h.1.trans hlines, ?_⟩
    rw [hhanded]
    exact h.2

theorem Accounted.write {line : ε} (h : Accounted s line) (file : Nat) (lines : List ε) :
    Accounted (s.write file lines) line := by
  rcases h with h | h | h
  · exact .inl h
  · exact .inr (.inl ((lines_write_extend _).subset h))
  · exact .inr (.inr ((lines_write_extend _).subset h))

theorem write_inv {file : Nat} {lines : List ε} (h : Inv s)
    (hnamed : s.pending = some file ∨ s.claimed = some file) : Inv (s.write file lines) := by
  have hfile := h.named file hnamed
  refine ⟨?_, ?_, ?_⟩
  · intro line hline
    rcases List.mem_append.mp hline with hold | hnew
    · exact (h.accounted line hold).write file lines
    · -- the file still has its name, so the line is in it
      have hmem : line ∈ (s.write file lines).lines (some file) := by
        rw [lines_write_self hfile]
        exact List.mem_append_right _ hnew
      rcases hnamed with hname | hname
      · exact .inr (.inl (by rw [← hname] at hmem; exact hmem))
      · exact .inr (.inr (by rw [← hname] at hmem; exact hmem))
  · exact fun engine hengine => (h.knows engine hengine).mono rfl (lines_write_extend _) rfl
  · intro other hother
    simpa [State.write] using h.named other hother

theorem lines_create {load : Nat} {name : Option Nat} (h : ∀ file, name = some file → file < s.files.length) :
    State.lines ⟨s.files ++ [[]], some s.files.length, s.claimed, s.loads.set load s.files.length,
      s.engine, s.written, s.handed⟩ name = s.lines name := by
  cases name with
  | none => rfl
  | some file => simp [State.lines, List.getElem?_append_left (h file rfl)]

theorem openFile_inv (h : Inv s) (load : Nat) : Inv (s.openFile load) := by
  unfold State.openFile
  split
  · rename_i file hpending
    exact ⟨h.accounted, fun engine hengine => (h.knows engine hengine).mono rfl List.prefix_rfl rfl,
      h.named⟩
  · rename_i hpending
    have hclaimed := @lines_create ε s load s.claimed fun file hfile => h.named file (.inr hfile)
    refine ⟨?_, ?_, ?_⟩
    · intro line hline
      rcases h.accounted line hline with hhanded | hmem | hmem
      · exact .inl hhanded
      · rw [hpending] at hmem
        exact absurd hmem List.not_mem_nil
      · exact .inr (.inr (by rw [hclaimed]; exact hmem))
    · intro engine hengine
      exact (h.knows engine hengine).mono rfl (by rw [hclaimed]) rfl
    · rintro file (hfile | hfile)
      · obtain rfl := Option.some.inj hfile
        simp
      · have hlt := h.named file (.inr hfile)
        simp only [List.length_append, List.length_cons, List.length_nil]
        omega

/-- A step of the drain that changes neither names nor files. -/
theorem Inv.engine (h : Inv s) {engine : Option (Engine ε)}
    (hknows : ∀ e ∈ engine, e.Knows { s with engine := engine }) : Inv { s with engine := engine } :=
  ⟨h.accounted, hknows, h.named⟩

/-- **A calm step of the drain.** -/
theorem advance_inv {engine : Engine ε} (h : Inv s) (hengine : s.engine = some engine)
    (hcalm : ∀ entries ∈ s.unlinking, (s.lines s.claimed).length = entries.length) : Inv (s.advance engine) := by
  have hknows := h.knows engine hengine
  cases engine with
  | test source =>
    cases source with
    | claimed =>
      cases hclaimed : s.claimed with
      | none =>
        refine h.engine fun e he => ?_
        rw [hclaimed] at he
        obtain rfl := Option.some.inj he
        exact hclaimed
      | some file =>
        refine h.engine fun e he => ?_
        rw [hclaimed] at he
        obtain rfl := Option.some.inj he
        exact trivial
    | pending =>
      refine h.engine fun e he => ?_
      cases hpending : s.pending with
      | none =>
        rw [hpending] at he
        exact absurd he (by simp [next])
      | some file =>
        rw [hpending] at he
        obtain rfl := Option.some.inj he
        exact hknows
  | rename =>
    have hclaimed : s.claimed = none := hknows
    simp only [State.advance]
    split
    · -- nothing is claimed, so the rename replaces no file
      refine ⟨?_, ?_, ?_⟩
      · intro line hline
        rcases h.accounted line hline with hhanded | hmem | hmem
        · exact .inl hhanded
        · exact .inr (.inr hmem)
        · rw [hclaimed] at hmem
          exact absurd hmem List.not_mem_nil
      · intro e he
        obtain rfl := Option.some.inj he
        exact trivial
      · rintro file (hfile | hfile)
        · exact absurd hfile (by simp)
        · exact h.named file (.inl hfile)
    · exact h.engine (by simp)
  | read source =>
    simp only [State.advance]
    split
    · refine h.engine fun e he => ?_
      obtain rfl := Option.some.inj he
      exact List.prefix_rfl
    · exact h.engine (by simp)
  | handOver source entries =>
    refine ⟨?_, ?_, h.named⟩
    · intro line hline
      rcases h.accounted line hline with hhanded | hmem | hmem
      · exact .inl (List.mem_append_left _ hhanded)
      · exact .inr (.inl hmem)
      · exact .inr (.inr hmem)
    · intro e he
      obtain rfl := Option.some.inj he
      exact ⟨hknows, fun line hline => List.mem_append_right _ hline⟩
  | unlink source entries =>
    obtain ⟨hread, hhanded⟩ := hknows
    have hall : entries = s.lines s.claimed := by
      refine hread.eq_of_length (hcalm entries ?_).symm
      rw [State.unlinking, hengine]
      rfl
    refine ⟨?_, ?_, ?_⟩
    · intro line hline
      rcases h.accounted line hline with hh | hmem | hmem
      · exact .inl hh
      · exact .inr (.inl hmem)
      · exact .inl (hhanded line (hall ▸ hmem))
    · intro e he
      cases source with
      | claimed =>
        obtain rfl := Option.some.inj he
        exact rfl
      | pending => exact absurd he (by simp [State.advance, next])
    · rintro file (hfile | hfile)
      · exact h.named file (.inl hfile)
      · exact absurd hfile (by simp [State.advance])

theorem step_inv {s s' : State ε} {a : Action ε} (h : Inv s) (hcalm : Calm s a)
    (hstep : step s a = some s') : Inv s' := by
  cases a with
  | openFile load =>
    obtain rfl := Option.some.inj hstep
    exact openFile_inv h load
  | write load lines =>
    obtain ⟨file, hfile, rfl⟩ := Option.map_eq_some_iff.mp hstep
    exact write_inv h (hcalm file hfile)
  | close load =>
    obtain rfl := Option.some.inj hstep
    exact ⟨h.accounted, fun e he => (h.knows e he).mono rfl List.prefix_rfl rfl, h.named⟩
  | start =>
    rw [step] at hstep
    split at hstep
    · obtain rfl := Option.some.inj hstep
      refine h.engine fun e he => ?_
      obtain rfl := Option.some.inj he
      exact trivial
    · simp at hstep
  | advance =>
    obtain ⟨engine, hengine, rfl⟩ := Option.map_eq_some_iff.mp hstep
    exact advance_inv h hengine hcalm
  | stop =>
    obtain rfl := Option.some.inj hstep
    exact h.engine (by simp)

/-- **No pending export is lost** along calm steps: in every state reached, whatever the interleaving
    of loads and of engines that stop anywhere, every line a load wrote is in the pending or the
    claimed file or was handed to `export_pending`. -/
theorem pending_accounted (actions : List (Action ε)) (s : State ε)
    (hcalm : Along step Calm State.initial actions) (hrun : run step State.initial actions = some s) :
    ∀ line ∈ s.written, Accounted s line :=
  (run_inv (fun _ _ _ h hcalm hstep => step_inv h hcalm hstep) actions _ s inv_initial hcalm
    hrun).accounted

/-- One engine stops with the file claimed, a second load writes meanwhile, and the next engine exports
    both files. -/
def stoppedOnce : List (Action Nat) :=
  [.openFile 0, .write 0 [7], .close 0, .start, .advance, .advance, .advance, .advance, .stop,
    .openFile 1, .write 1 [8, 9], .start, .advance, .advance, .advance, .advance]

theorem pending_accounted_stoppedOnce :
    ∃ s, run step State.initial stoppedOnce = some s ∧ s.written = [7, 8, 9] ∧ s.handed = [7] ∧
      s.lines s.pending = [8, 9] ∧ s.claimed = none ∧ ∀ line ∈ s.written, Accounted s line :=
  ⟨_, rfl, rfl, rfl, rfl, rfl, pending_accounted stoppedOnce _ (by decide) rfl⟩

/-- The load opens the pending file before the engine renames it and writes once the engine has read
    it. -/
def writtenBehind : List (Action Nat) :=
  [.openFile 0, .start, .advance, .advance, .advance, .advance, .write 0 [7], .advance, .advance]

theorem pending_loses_line :
    ¬ ∀ (actions : List (Action Nat)) (s : State Nat), run step State.initial actions = some s →
      ∀ line ∈ s.written, Accounted s line := by
  intro h
  have hlost := h writtenBehind _ rfl 7 (by decide)
  rcases hlost with hmem | hmem | hmem
  · exact absurd hmem (by decide)
  · exact absurd hmem (by decide)
  · exact absurd hmem (by decide)

/-! ## 3. No line stays behind -/

theorem drains_claimed (h : s.engine = some (.test .claimed)) : ∃ n,
    run step s (List.replicate n .advance) = some { s with
      claimed := none, engine := some (.test .pending), handed := s.handed ++ s.lines s.claimed } := by
  obtain ⟨files, pending, claimed, loads, engine, written, handed⟩ := s
  subst h
  cases claimed with
  | none => exact ⟨1, congrArg some (by simp [State.advance, State.lines, next])⟩
  | some file => exact ⟨4, rfl⟩

theorem drains_pending (h : s.engine = some (.test .pending)) (hclaimed : s.claimed = none) : ∃ n,
    run step s (List.replicate n .advance) = some { s with
      pending := none, engine := none, handed := s.handed ++ s.lines s.pending } := by
  obtain ⟨files, pending, claimed, loads, engine, written, handed⟩ := s
  subst h hclaimed
  cases pending with
  | none => exact ⟨1, congrArg some (by simp [State.advance, State.lines, next])⟩
  | some file => exact ⟨5, rfl⟩

/-- **No line stays behind.** After every calm run, an engine that starts anew and is left to itself hands over all
    that loads wrote, and leaves neither file. -/
theorem pending_drains (actions : List (Action ε)) (s : State ε)
    (hcalm : Along step Calm State.initial actions) (hrun : run step State.initial actions = some s) :
    ∃ n s', run step s (.stop :: .start :: List.replicate n .advance) = some s' ∧ s'.engine = none ∧
      s'.pending = none ∧ s'.claimed = none ∧ ∀ line ∈ s.written, line ∈ s'.handed := by
  have hI : Inv s := run_inv (fun _ _ _ h hcalm hstep => step_inv h hcalm hstep) actions _ s inv_initial hcalm hrun
  obtain ⟨n, hfirst⟩ := @drains_claimed ε { s with engine := some (.test .claimed) } rfl
  obtain ⟨m, hsecond⟩ := @drains_pending ε { s with
    claimed := none, engine := some (.test .pending), handed := s.handed ++ s.lines s.claimed } rfl rfl
  refine ⟨n + m, { s with
    claimed := none, pending := none, engine := none, handed := s.handed ++ s.lines s.claimed ++ s.lines s.pending },
    ?_, rfl, rfl, rfl, fun line hline => ?_⟩
  · rw [List.replicate_add]
    exact (run_append _ _ _).trans ((congrArg (Option.bind · _) hfirst).trans hsecond)
  · rcases hI.accounted line hline with hmem | hmem | hmem
    · exact List.mem_append_left _ (List.mem_append_left _ hmem)
    · exact List.mem_append_right _ hmem
    · exact List.mem_append_left _ (List.mem_append_right _ hmem)

/-- After the first engine has stopped with the file claimed. -/
theorem pending_drains_stoppedOnce : ∃ s n s', run step State.initial (stoppedOnce.take 11) = some s ∧
    run step s (.stop :: .start :: List.replicate n .advance) = some s' ∧ s'.engine = none ∧
      s'.pending = none ∧ s'.claimed = none ∧ ∀ line ∈ s.written, line ∈ s'.handed :=
  ⟨_, (pending_drains (stoppedOnce.take 11) _ (by decide) rfl).imp fun _ ⟨s', h⟩ => ⟨s', rfl, h⟩⟩

end Ceres.Exporter.Pending
