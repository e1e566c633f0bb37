/-
  File:      Ceres/Component/JobManager.lean
  Subject:   REGISTERED JOBS AND THE SCHEDULER'S (`job.py`: `JobManager`; `pruner.py`: `PrunerManager`).

  Both managers keep the registered configurations by name and hand them to a scheduler of another
  package. `_sync_jobs` gives the scheduler a job for each name it holds none for; a name it holds one
  for is skipped, whatever the configuration registered under it is now.

  * `Scheduler`, `Scheduler.Lawful` -- what the managers ask of the scheduler and what they rely on;
  * `Manager`, `step` -- the two managers as one, with what they do differently as parameters;
  * `sync_getJob` -- what the loop leaves in the scheduler;
  * `InStep` -- a running manager's scheduler holds just the registered jobs; `Renewed` -- the steps
    that keep it so;
  * **`scheduler_runs_registered_iff`** -- the scheduler is in step in a whole run exactly when every
    step of it is such a one;
  * `second_schedule_ignored` -- one name added twice.
-/
import Ceres.Library.Dict
import Ceres.Library.Run

namespace Ceres.Component.JobManager

open Ceres.Library

/-! ## 1. The scheduler -/

/-- The operations of a scheduler with states `σ` and jobs `β`. -/
structure Scheduler (σ β : Type) where
  create : σ
  getJob : σ → String → Option β
  addJob : σ → String → β → σ
  /-- `none` where the scheduler raises `JobLookupError`. -/
  removeJob : σ → String → Option σ
  getJobs : σ → Dict String β
  start : σ → σ

variable {σ β : Type}

/-- What its documentation says of it. -/
structure Scheduler.Lawful (scheduler : Scheduler σ β) : Prop where
  create : ∀ name, scheduler.getJob scheduler.create name = none
  addJob : ∀ s name job other, scheduler.getJob s name = none →
    scheduler.getJob (scheduler.addJob s name job) other =
      if name = other then some job else scheduler.getJob s other
  unknown : ∀ s name, scheduler.removeJob s name = none ↔ scheduler.getJob s name = none
  removeJob : ∀ s name t other, scheduler.removeJob s name = some t →
    scheduler.getJob t other = if name = other then none else scheduler.getJob s other
  ids : ∀ s, (scheduler.getJobs s).keys.Nodup
  getJobs : ∀ s name job, (name, job) ∈ scheduler.getJobs s ↔ scheduler.getJob s name = some job
  start : ∀ s name, scheduler.getJob (scheduler.start s) name = scheduler.getJob s name

/-- A loop of `remove_job`, left when one raises. -/
def Scheduler.removeJobs (scheduler : Scheduler σ β) : List String → σ → σ
  | [], s => s
  | id :: rest, s => ((scheduler.removeJob s id).map (scheduler.removeJobs rest)).getD s

namespace Scheduler.Lawful

variable {scheduler : Scheduler σ β} (h : scheduler.Lawful)
include h

/-- `remove_job` where a lookup error is passed over. -/
theorem getJob_removed (s : σ) (name other : String) :
    scheduler.getJob ((scheduler.removeJob s name).getD s) other =
      if name = other then none else scheduler.getJob s other := by
  cases hremove : scheduler.removeJob s name with
  | some t => exact h.removeJob s name t other hremove
  | none =>
    rw [Option.getD_none]
    split
    · rename_i heq
      exact heq ▸ (h.unknown s name).mp hremove
    · rfl

theorem getJob_removeJobs :
    ∀ (ids : List String) (s : σ), ids.Nodup → (∀ id ∈ ids, scheduler.getJob s id ≠ none) →
      ∀ name, scheduler.getJob (scheduler.removeJobs ids s) name =
        if name ∈ ids then none else scheduler.getJob s name
  | [], s, _, _, name => by simp [Scheduler.removeJobs]
  | id :: rest, s, hids, hheld, name => by
    obtain ⟨hid, hrest⟩ := List.nodup_cons.mp hids
    obtain ⟨t, ht⟩ := Option.ne_none_iff_exists'.mp
      ((not_congr (h.unknown s id)).mpr (hheld id List.mem_cons_self))
    have hget := h.removeJob s id t
    have hheld' : ∀ other ∈ rest, scheduler.getJob t other ≠ none := by
      intro other hother
      have hne : id ≠ other := fun heq => hid (heq.symm ▸ hother)
      rw [hget other ht, if_neg hne]
      exact hheld other (List.mem_cons_of_mem id hother)
    rw [Scheduler.removeJobs, ht, Option.map_some, Option.getD_some,
      getJob_removeJobs rest t hrest hheld' name, hget name ht]
    by_cases heq : id = name
    · simp [heq]
    · simp [heq, Ne.symm heq]

/-- The loop of `clear` meets no error and leaves no job. -/
theorem getJob_cleared (s : σ) (name : String) :
    scheduler.getJob (scheduler.removeJobs (scheduler.getJobs s).keys s) name = none := by
  have hheld : ∀ id ∈ (scheduler.getJobs s).keys, scheduler.getJob s id ≠ none := by
    intro id hid
    obtain ⟨⟨same, job⟩, hmem, rfl⟩ := List.mem_map.mp hid
    rw [(h.getJobs s same job).mp hmem]
    exact Option.some_ne_none job
  rw [h.getJob_removeJobs _ s (h.ids s) hheld]
  split
  · rfl
  · rename_i hname
    by_contra hsome
    obtain ⟨job, hjob⟩ := Option.ne_none_iff_exists'.mp hsome
    exact hname (Dict.mem_keys_of_mem ((h.getJobs s name job).mpr hjob))

theorem getJobs_perm_iff {s : σ} {d : Dict String β} (hd : d.keys.Nodup) :
    (scheduler.getJobs s).Perm d ↔ ∀ name, scheduler.getJob s name = d.get name := by
  have hget : ∀ name job, (name, job) ∈ d ↔ d.get name = some job :=
    fun name job => ⟨Dict.get_of_mem hd, Dict.mem_of_get⟩
  rw [List.perm_ext_iff_of_nodup (List.Nodup.of_map _ (h.ids s)) (List.Nodup.of_map _ hd)]
  constructor
  · intro hmem name
    refine Option.ext fun job => ?_
    rw [← h.getJobs s name job, ← hget name job]
    exact hmem (name, job)
  · rintro heq ⟨name, job⟩
    rw [h.getJobs s name job, hget name job, heq name]

end Scheduler.Lawful

/-! ## 2. The managers -/

/-- What the scheduler holds for a configuration: when to call it, and what with. -/
structure Job (γ τ : Type) where
  trigger : τ
  args : γ
  deriving DecidableEq

/-- A manager of configurations `γ` with triggers `τ`. -/
structure Manager (γ τ σ : Type) where
  name : γ → String
  /-- `schedule.create_trigger()`. -/
  createTrigger : γ → τ
  /-- What `add` checks before anything else. -/
  accepts : γ → Bool
  scheduler : Scheduler σ (Job γ τ)

structure State (γ σ : Type) where
  registered : Dict String γ
  scheduler : σ
  running : Bool

variable {γ τ : Type}

inductive Action (γ : Type) where
  | add (config : γ)
  | remove (name : String)
  | clear
  /-- `__run__` up to its sleep, and from there on when it is cancelled. -/
  | start
  | stop

namespace Manager

variable (m : Manager γ τ σ)

def initial : State γ σ := ⟨[], m.scheduler.create, false⟩

def job (config : γ) : Job γ τ := ⟨m.createTrigger config, config⟩

/-- One turn of `_sync_jobs`. -/
def syncJob (s : σ) (entry : String × γ) : σ :=
  if (m.scheduler.getJob s entry.1).isSome then s else m.scheduler.addJob s entry.1 (m.job entry.2)

/-- `_sync_jobs`. -/
def syncJobs (registered : Dict String γ) (s : σ) : σ := registered.foldl m.syncJob s

def add (s : State γ σ) (config : γ) : State γ σ :=
  -- an action that does not exist is a ValueError
  if m.accepts config then
    let registered := s.registered.set (m.name config) config
    { s with registered, scheduler := m.syncJobs registered s.scheduler }
  else s

def remove (s : State γ σ) (name : String) : State γ σ :=
  { s with
    scheduler := (m.scheduler.removeJob s.scheduler name).getD s.scheduler
    registered := s.registered.erase name }

def clear (s : State γ σ) : State γ σ :=
  { s with
    registered := []
    scheduler := m.scheduler.removeJobs (m.scheduler.getJobs s.scheduler).keys s.scheduler }

def step (s : State γ σ) : Action γ → Option (State γ σ)
  | .add config => some (m.add s config)
  | .remove name => some (m.remove s name)
  | .clear => some (m.clear s)
  | .start =>
    if s.running then none
    else some { s with scheduler := m.scheduler.start (m.syncJobs s.registered s.scheduler), running := true }
  | .stop => if s.running then some { s with scheduler := m.scheduler.create, running := false } else none

/-- The configuration added last under a name and not removed since; the newest action is first. -/
def latest (name : String) : List (Action γ) → Option γ
  | [] => none
  | .add config :: earlier =>
    if m.accepts config ∧ m.name config = name then some config else latest name earlier
  | .remove other :: earlier => if other = name then none else latest name earlier
  | .clear :: _ => none
  | .start :: earlier => latest name earlier
  | .stop :: earlier => latest name earlier

def jobs (registered : Dict String γ) : Dict String (Job γ τ) :=
  registered.map fun entry => (entry.1, m.job entry.2)

/-- While the manager runs, the scheduler holds one job per registered name, with the trigger and the
    configuration registered under it. -/
def InStep (s : State γ σ) : Prop :=
  s.running = true → (m.scheduler.getJobs s.scheduler).Perm (m.jobs s.registered)

/-- A running manager gets a configuration only under a new name, or the one it has; one that starts holds
    no job of a configuration that another has replaced. -/
def Renewed (s : State γ σ) : Action γ → Prop
  | .add config => s.running = true → m.accepts config = true →
      ∀ old, s.registered.get (m.name config) = some old → old = config
  | .start => s.running = false → ∀ name held config,
      m.scheduler.getJob s.scheduler name = some held → s.registered.get name = some config →
        held = m.job config
  | _ => True

end Manager

/-! ## 3. What the loop leaves -/

namespace Manager

variable {m : Manager γ τ σ}

theorem jobs_keys (registered : Dict String γ) : (m.jobs registered).keys = registered.keys := by
  simp [Manager.jobs, Dict.keys]

theorem jobs_get (registered : Dict String γ) (name : String) :
    (m.jobs registered).get name = (registered.get name).map m.job := by
  induction registered with
  | nil => rfl
  | cons entry rest ih =>
    have hcons : m.jobs (entry :: rest) = (entry.1, m.job entry.2) :: m.jobs rest := rfl
    rw [hcons, Dict.get_cons, Dict.get_cons, ih]
    split <;> rfl

/-- **The loop.** A name that the scheduler holds keeps its job, any other gets its configuration's. -/
theorem sync_getJob (h : m.scheduler.Lawful) : ∀ (registered : Dict String γ) (s : σ) (name : String),
      m.scheduler.getJob (m.syncJobs registered s) name =
        (m.scheduler.getJob s name).or ((registered.get name).map m.job)
  | [], s, name => (Option.or_none).symm
  | entry :: rest, s, name => by
    have hloop : m.syncJobs (entry :: rest) s = m.syncJobs rest (m.syncJob s entry) := rfl
    rw [hloop, sync_getJob h rest, Dict.get_cons]
    unfold syncJob
    split
    · rename_i hheld
      by_cases hname : entry.1 = name
      · obtain ⟨job, hjob⟩ := Option.isSome_iff_exists.mp hheld
        rw [← hname, hjob, Option.some_or, Option.some_or]
      · rw [if_neg hname]
    · rename_i hheld
      rw [h.addJob s entry.1 (m.job entry.2) name (by simpa using hheld)]
      by_cases hname : entry.1 = name
      · have hnone : m.scheduler.getJob s name = none := by simpa [hname] using hheld
        rw [if_pos hname, if_pos hname, Option.some_or, hnone, Option.none_or, Option.map_some]
      · rw [if_neg hname, if_neg hname]

/-! ## 4. What a step keeps -/

/-- The scheduler holds jobs of registered names only, and while the manager runs all of them with what is
    registered. -/
structure Inv (m : Manager γ τ σ) (s : State γ σ) : Prop where
  names : s.registered.keys.Nodup
  known : ∀ name, s.registered.get name = none → m.scheduler.getJob s.scheduler name = none
  current : s.running = true → ∀ name,
    m.scheduler.getJob s.scheduler name = (s.registered.get name).map m.job

theorem inv_initial (h : m.scheduler.Lawful) : Inv m m.initial :=
  ⟨List.nodup_nil, fun name _ => h.create name, fun hrunning => by simp [initial] at hrunning⟩

theorem inStep_iff (h : m.scheduler.Lawful) {s : State γ σ} (hnames : s.registered.keys.Nodup) :
    m.InStep s ↔ (s.running = true → ∀ name,
      m.scheduler.getJob s.scheduler name = (s.registered.get name).map m.job) := by
  have hjobs : (m.jobs s.registered).keys.Nodup := by rwa [jobs_keys]
  unfold InStep
  rw [h.getJobs_perm_iff hjobs]
  simp only [jobs_get]

theorem add_names {s : State γ σ} (hnames : s.registered.keys.Nodup) (config : γ) :
    (m.add s config).registered.keys.Nodup := by
  unfold add
  split
  · exact Dict.nodup_keys_set hnames _ _
  · exact hnames

theorem step_names {s t : State γ σ} {a : Action γ} (hnames : s.registered.keys.Nodup)
    (hstep : m.step s a = some t) : t.registered.keys.Nodup := by
  cases a with
  | add config =>
    obtain rfl := Option.some.inj hstep
    exact add_names hnames config
  | remove name =>
    obtain rfl := Option.some.inj hstep
    exact Dict.nodup_keys_erase hnames name
  | clear =>
    obtain rfl := Option.some.inj hstep
    exact List.nodup_nil
  | start =>
    simp only [step, Option.ite_none_left_eq_some, Option.some.injEq] at hstep
    obtain ⟨-, rfl⟩ := hstep
    exact hnames
  | stop =>
    simp only [step, Option.ite_none_right_eq_some, Option.some.injEq] at hstep
    obtain ⟨-, rfl⟩ := hstep
    exact hnames

theorem add_inv (h : m.scheduler.Lawful) {s : State γ σ} {config : γ} (hs : Inv m s)
    (hnew : m.Renewed s (.add config)) : Inv m (m.add s config) := by
  refine ⟨add_names hs.names config, ?_, ?_⟩ <;> unfold add <;> split
  · intro name hname
    have hname : (s.registered.set (m.name config) config).get name = none := hname
    show m.scheduler.getJob (m.syncJobs _ s.scheduler) name = none
    rw [sync_getJob h, hname]
    rw [Dict.get_set] at hname
    split at hname
    · exact absurd hname (by simp)
    · rw [hs.known name hname]
      rfl
  · exact hs.known
  · rename_i haccepts
    intro hrunning name
    show m.scheduler.getJob (m.syncJobs (s.registered.set (m.name config) config) s.scheduler) name =
      ((s.registered.set (m.name config) config).get name).map m.job
    rw [sync_getJob h, hs.current hrunning, Dict.get_set]
    by_cases hname : m.name config = name
    · -- the job under the name, if there is one, is that of the same configuration
      rw [if_pos hname]
      cases hold : s.registered.get name with
      | none => rfl
      | some old => rw [hnew hrunning haccepts old (hname ▸ hold)]; rfl
    · rw [if_neg hname, Option.or_self]
  · exact hs.current

theorem step_inv (h : m.scheduler.Lawful) {s t : State γ σ} {a : Action γ} (hs : Inv m s)
    (hstep : m.step s a = some t) (hrenewed : m.Renewed s a) : Inv m t := by
  have hnames := step_names hs.names hstep
  cases a with
  | add config =>
    obtain rfl := Option.some.inj hstep
    exact add_inv h hs hrenewed
  | remove name =>
    obtain rfl := Option.some.inj hstep
    have hjob := h.getJob_removed s.scheduler name
    refine ⟨hnames, fun other hother => ?_, fun hrunning other => ?_⟩
    · refine (hjob other).trans ?_
      have hother : (s.registered.erase name).get other = none := hother
      rw [Dict.get_erase] at hother
      split at hother
      · rename_i heq
        exact if_pos heq
      · rename_i hne
        exact (if_neg hne).trans (hs.known other hother)
    · refine (hjob other).trans ?_
      show _ = ((s.registered.erase name).get other).map m.job
      rw [Dict.get_erase, hs.current hrunning]
      split <;> rfl
  | clear =>
    obtain rfl := Option.some.inj hstep
    exact ⟨hnames, fun name _ => h.getJob_cleared s.scheduler name,
      fun _ name => h.getJob_cleared s.scheduler name⟩
  | start =>
    simp only [step, Option.ite_none_left_eq_some, Option.some.injEq] at hstep
    obtain ⟨hstopped, rfl⟩ := hstep
    have hjob : ∀ name,
        m.scheduler.getJob (m.scheduler.start (m.syncJobs s.registered s.scheduler)) name =
          (m.scheduler.getJob s.scheduler name).or ((s.registered.get name).map m.job) := by
      intro name
      rw [h.start, sync_getJob h]
    refine ⟨hnames, fun name hname => ?_, fun _ name => ?_⟩
    · have hname : s.registered.get name = none := hname
      rw [hjob, hs.known name hname, hname]
      rfl
    · rw [hjob]
      cases hheld : m.scheduler.getJob s.scheduler name with
      | none => exact Option.none_or
      | some held =>
        obtain ⟨config, hconfig⟩ := Option.ne_none_iff_exists'.mp fun hnone => by
          exact absurd (hheld.symm.trans (hs.known name hnone)) (by simp)
        rw [hrenewed (Bool.not_eq_true _ ▸ hstopped) name held config hheld hconfig, hconfig]
        rfl
  | stop =>
    simp only [step, Option.ite_none_right_eq_some, Option.some.injEq] at hstep
    obtain ⟨-, rfl⟩ := hstep
    exact ⟨hnames, fun name _ => h.create name, fun hrunning => absurd hrunning (by simp)⟩

theorem renewed_of_inStep (h : m.scheduler.Lawful) {s t : State γ σ} {a : Action γ} (hs : Inv m s)
    (hstep : m.step s a = some t) (hin : m.InStep t) : m.Renewed s a := by
  have hcurrent := (inStep_iff h (step_names hs.names hstep)).mp hin
  cases a with
  | add config =>
    obtain rfl := Option.some.inj hstep
    intro hrunning haccepts old hold
    simp only [add, if_pos haccepts] at hcurrent
    have hjob := hcurrent hrunning (m.name config)
    rw [sync_getJob h, hs.current hrunning, hold, Dict.get_set, if_pos rfl, Option.map_some,
      Option.some_or, Option.map_some, Option.some.injEq] at hjob
    exact congrArg Job.args hjob
  | start =>
    simp only [step, Option.ite_none_left_eq_some, Option.some.injEq] at hstep
    obtain ⟨-, rfl⟩ := hstep
    intro _ name held config hheld hconfig
    have hjob := hcurrent rfl name
    rw [h.start, sync_getJob h, hheld, hconfig, Option.some_or, Option.map_some, Option.some.injEq] at hjob
    exact hjob
  | remove name => trivial
  | clear => trivial
  | stop => trivial

theorem registered_latest_from (m : Manager γ τ σ) : ∀ (actions earlier : List (Action γ)) (s t : State γ σ),
      (∀ name, s.registered.get name = m.latest name earlier) → run m.step s actions = some t →
      ∀ name, t.registered.get name = m.latest name (actions.reverse ++ earlier)
  | [], earlier, s, t, hs, hrun, name => by
    obtain rfl := Option.some.inj hrun
    exact hs name
  | a :: rest, earlier, s, t, hs, hrun, name => by
    rw [run] at hrun
    obtain ⟨s', hstep, hrun⟩ := Option.bind_eq_some_iff.mp hrun
    rw [List.reverse_cons, List.append_assoc]
    refine registered_latest_from m rest (a :: earlier) s' t (fun other => ?_) hrun name
    cases a with
    | add config =>
      obtain rfl := Option.some.inj hstep
      unfold add
      rw [latest]
      by_cases haccepts : m.accepts config = true
      · simp only [haccepts, if_true, true_and, Dict.get_set, hs]
      · simp only [haccepts, hs, false_and, if_false, Bool.false_eq_true]
    | remove removed =>
      obtain rfl := Option.some.inj hstep
      exact (Dict.get_erase _ _ _).trans (by rw [latest, hs])
    | clear =>
      obtain rfl := Option.some.inj hstep
      rfl
    | start =>
      simp only [step, Option.ite_none_left_eq_some, Option.some.injEq] at hstep
      obtain ⟨-, rfl⟩ := hstep
      exact hs other
    | stop =>
      simp only [step, Option.ite_none_right_eq_some, Option.some.injEq] at hstep
      obtain ⟨-, rfl⟩ := hstep
      exact hs other

theorem registered_latest {actions : List (Action γ)} {t : State γ σ}
    (hrun : run m.step m.initial actions = some t) (name : String) :
    t.registered.get name = m.latest name actions.reverse := by
  have hget := registered_latest_from m actions [] m.initial t (fun _ => rfl) hrun name
  rwa [List.append_nil] at hget

/-- Over every run the registry is what was added last, and the scheduler is in step with it in all states
    exactly when every step renews what it holds. -/
structure RunsRegistered (m : Manager γ τ σ) : Prop where
  latest : ∀ (actions : List (Action γ)) (t : State γ σ), run m.step m.initial actions = some t →
    t.registered.keys.Nodup ∧ ∀ name, t.registered.get name = m.latest name actions.reverse
  inStep : ∀ actions : List (Action γ),
    Always m.step m.InStep m.initial actions ↔ Along m.step m.Renewed m.initial actions

theorem run_names : ∀ (actions : List (Action γ)) (s t : State γ σ), s.registered.keys.Nodup →
    run m.step s actions = some t → t.registered.keys.Nodup
  | [], s, t, hnames, hrun => Option.some.inj hrun ▸ hnames
  | a :: rest, s, t, hnames, hrun => by
    rw [run] at hrun
    obtain ⟨s', hstep, hrun⟩ := Option.bind_eq_some_iff.mp hrun
    exact run_names rest s' t (step_names hnames hstep) hrun

theorem runsRegistered (h : m.scheduler.Lawful) : RunsRegistered m where
  latest actions t hrun := ⟨run_names actions m.initial t List.nodup_nil hrun, registered_latest hrun⟩
  inStep actions := by
    refine always_iff_along (I := Inv m) (fun s hs => (inStep_iff h hs.names).mpr hs.current) ?_
      (fun s a s' hs hstep hin => renewed_of_inStep h hs hstep hin)
      (fun s a s' hs hstep hrenewed => step_inv h hs hstep hrenewed) actions m.initial (inv_initial h)
    intro s a hstep
    cases a with
    | start =>
      simp only [step, ite_eq_left_iff, Bool.not_eq_true, reduceCtorEq, imp_false,
        Bool.not_eq_false] at hstep
      intro hstopped
      exact absurd (hstep.symm.trans hstopped) (by simp)
    | add config => cases hstep
    | remove name => trivial
    | clear => trivial
    | stop => trivial

end Manager

/-! ## 5. Jobs and pruners -/

structure JobConfig (ς α : Type) where
  name : String
  action : String
  arguments : α
  schedule : ς
  retries : Nat
  /-- Microseconds. -/
  retryDelay : Nat
  deriving DecidableEq

inductive EntityType where
  | message
  | particle
  | alert
  | logEntry
  deriving DecidableEq

structure PrunerConfig (ς φ : Type) where
  name : String
  prunes : EntityType
  schedule : ς
  filter : φ
  deriving DecidableEq

variable {ς α φ : Type}

/-- `JobManager`; `bindings` are the names of the component's actions. -/
def jobManager (createTrigger : ς → τ) (bindings : List String)
    (scheduler : Scheduler σ (Job (JobConfig ς α) τ)) : Manager (JobConfig ς α) τ σ where
  name := JobConfig.name
  createTrigger config := createTrigger config.schedule
  accepts config := decide (config.action ∈ bindings)
  scheduler := scheduler

/-- `PrunerManager`. -/
def prunerManager (createTrigger : ς → τ) (scheduler : Scheduler σ (Job (PrunerConfig ς φ) τ)) :
    Manager (PrunerConfig ς φ) τ σ where
  name := PrunerConfig.name
  createTrigger config := createTrigger config.schedule
  accepts _ := true
  scheduler := scheduler

/-- **When the scheduler runs what is registered**, for jobs and for pruners. -/
theorem scheduler_runs_registered_iff {σ' : Type} (createTrigger : ς → τ) (bindings : List String)
    {jobs : Scheduler σ (Job (JobConfig ς α) τ)} (hjobs : jobs.Lawful)
    {pruners : Scheduler σ' (Job (PrunerConfig ς φ) τ)} (hpruners : pruners.Lawful) :
    (jobManager createTrigger bindings jobs).RunsRegistered ∧
      (prunerManager createTrigger pruners).RunsRegistered :=
  ⟨Manager.runsRegistered hjobs, Manager.runsRegistered hpruners⟩

/-- The jobs of a scheduler that keeps them in memory. -/
structure MemoryStore (β : Type) where
  jobs : Dict String β
  ids : jobs.keys.Nodup

def memoryScheduler (β : Type) : Scheduler (MemoryStore β) β where
  create := ⟨[], List.nodup_nil⟩
  getJob s name := s.jobs.get name
  addJob s name job := ⟨s.jobs.set name job, Dict.nodup_keys_set s.ids name job⟩
  removeJob s name :=
    if (s.jobs.get name).isSome then some ⟨s.jobs.erase name, Dict.nodup_keys_erase s.ids name⟩ else none
  getJobs s := s.jobs
  start s := s

theorem memoryScheduler_lawful (β : Type) : (memoryScheduler β).Lawful where
  create _ := rfl
  addJob s name job other _ := Dict.get_set s.jobs name job other
  unknown s name := by simp [memoryScheduler]
  removeJob s name t other hremove := by
    simp only [memoryScheduler, Option.ite_none_right_eq_some, Option.some.injEq] at hremove
    obtain ⟨-, rfl⟩ := hremove
    exact Dict.get_erase s.jobs name other
  ids s := s.ids
  getJobs s _ _ := ⟨Dict.get_of_mem s.ids, Dict.mem_of_get⟩
  start _ _ := rfl

/-- Pruners with a schedule of so many seconds, in memory. -/
def pruners : Manager (PrunerConfig Nat Nat) Nat (MemoryStore (Job (PrunerConfig Nat Nat) Nat)) :=
  prunerManager id (memoryScheduler _)

theorem scheduler_runs_registered_memory :
    (jobManager (id : Nat → Nat) ["read"] (memoryScheduler (Job (JobConfig Nat Nat) Nat))).RunsRegistered ∧
      pruners.RunsRegistered :=
  scheduler_runs_registered_iff (ς := Nat) (τ := Nat) (α := Nat) (φ := Nat) id ["read"]
    (memoryScheduler_lawful _) (memoryScheduler_lawful _)

/-- **The schedule that is left.** A pruner added again with another schedule keeps the first one's job. -/
theorem second_schedule_ignored :
    ¬ ∀ (actions : List (Action (PrunerConfig Nat Nat)))
      (t : State (PrunerConfig Nat Nat) (MemoryStore (Job (PrunerConfig Nat Nat) Nat))),
      run pruners.step pruners.initial actions = some t → pruners.InStep t := by
  intro h
  have hperm := h [.start, .add ⟨"old", .message, 60, 7⟩, .add ⟨"old", .message, 10, 7⟩] _ rfl rfl
  have hmem : ("old", pruners.job ⟨"old", .message, 10, 7⟩) ∈ _ := hperm.mem_iff.mpr List.mem_cons_self
  exact absurd hmem (by decide)

end Ceres.Component.JobManager
