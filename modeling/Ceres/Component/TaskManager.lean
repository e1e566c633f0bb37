/-
  File:      Ceres/Component/TaskManager.lean
  Subject:   THE TASKS OF A COMPONENT'S MANAGER (`__internal__/manager.py`:
             `BaseComponentTaskManager`; `sieves.py`: `SieveManager.process`).

  A manager keeps named objects and, while it runs, a task for each that runs `process`. The map
  `_tasks` holds the latest task of a name; `remove`, `clear` and the end of `__run__` cancel what the
  map names and wait until that has ended, and other operations go on in between.

  * `State`, `step` -- objects, task map, live tasks and the operations that wait;
  * `OneEach` -- one live task for each object, none when the manager has stopped, and each parsed
    particle stored once;
  * `Calm` -- an object is added to a running manager only when it has no others, and no task is
    started under a name that a waiting operation is about to drop;
  * **`tasks_one_each`** -- along calm steps every object has one task;
  * `sync_starts_second_task` -- a second object added at run time.
-/
import Ceres.Library.Dict
import Ceres.Library.Run

namespace Ceres.Component.TaskManager

open Ceres.Library

variable {ω : Type}

/-! ## 1. The system -/

/-- What waits for cancelled tasks, by what it does when they have ended. -/
inductive Kind where
  | remove (name : String)
  | clear
  | stop
  deriving DecidableEq

/-- An operation that is suspended in `cancel`, with the tasks it gave it. -/
structure Operation where
  kind : Kind
  waits : List Nat

structure State (ω : Type) where
  objects : Dict String ω
  tasks : Dict String Nat
  /-- The process tasks that have not ended, with the name and the object each was created for. -/
  live : Dict Nat (String × ω)
  cancelled : List Nat
  /-- How many tasks were created. -/
  created : Nat
  running : Bool
  stopping : Bool
  operations : List Operation

def State.initial : State ω := ⟨[], [], [], [], 0, false, false, []⟩

def State.createTask (s : State ω) (object : String × ω) : State ω :=
  { s with
    tasks := s.tasks.set object.1 s.created
    live := s.live ++ [(s.created, object)]
    created := s.created + 1 }

def State.syncTasks (s : State ω) : State ω := s.objects.foldl State.createTask s

def State.add (s : State ω) (name : String) (object : ω) : State ω :=
  let s := { s with objects := s.objects ++ [(name, object)] }
  if s.running && !s.stopping then s.syncTasks else s

/-- The name an object is registered under: one without a name gets the next number. -/
def State.nameOf (s : State ω) (name : Option String) : String :=
  name.getD (toString (s.objects.length + 1))

/-- What an operation does after `cancel`. -/
def State.finish (s : State ω) : Kind → State ω
  | .remove name => { s with tasks := s.tasks.erase name, objects := s.objects.erase name }
  | .clear => { s with tasks := [], objects := [] }
  | .stop => { s with tasks := [], running := false, stopping := false }

/-- An operation up to its `cancel`: a task that has ended is not cancelled any more, and with no task
    to wait for the operation is not suspended. -/
def State.enter (s : State ω) (kind : Kind) (waits : List Nat) : State ω :=
  if waits = [] then s.finish kind
  else
    { s with
      cancelled := waits.filter (fun task => decide (task ∈ s.live.keys)) ++ s.cancelled
      stopping := s.stopping || decide (kind = .stop)
      operations := s.operations ++ [⟨kind, waits⟩] }

inductive Action (ω : Type) where
  | add (name : Option String) (object : ω)
  | remove (name : String)
  | clear
  /-- `__run__` up to its sleep, and from there on when it is cancelled. -/
  | start
  | stop
  /-- A cancelled task ends. -/
  | finished (task : Nat)
  /-- A waiting operation goes on. -/
  | resume (operation : Nat)

/-- A name in use trips the assertion of `add`, or keeps its search for a number going. -/
def step (s : State ω) : Action ω → Option (State ω)
  | .add name object =>
    if s.objects.get (s.nameOf name) = none then some (s.add (s.nameOf name) object) else none
  | .remove name => some (s.enter (.remove name) (s.tasks.get name).toList)
  | .clear => some (s.enter .clear s.tasks.values)
  | .start => if s.running then none else some { s with running := true }.syncTasks
  | .stop => if s.running && !s.stopping then some (s.enter .stop s.tasks.values) else none
  | .finished task =>
    if task ∈ s.live.keys ∧ task ∈ s.cancelled then some { s with live := s.live.erase task } else none
  | .resume operation =>
    s.operations[operation]?.bind fun waiting =>
      if ∀ task ∈ waiting.waits, task ∉ s.live.keys then
        some (State.finish { s with operations := s.operations.eraseIdx operation } waiting.kind)
      else none

/-! ## 2. One task for each object -/

/-- What the tasks of a `SieveManager` store of what the sieves parse: a task that is not cancelled
    stores each particle of its own sieve, when that is stored at all. -/
def State.store {π : Type} (s : State ω) (stored : ω → Bool) (parse : ω → List π) : List π :=
  (s.live.filter fun task => decide (task.1 ∉ s.cancelled)).flatMap fun task =>
    if stored task.2.2 then parse task.2.2 else []

structure OneEach [DecidableEq ω] (s : State ω) : Prop where
  one : s.running = true → s.operations = [] → ∀ object : String × ω,
    (s.live.map Prod.snd).count object = if object ∈ s.objects then 1 else 0
  none : s.running = false → s.live = []
  once : s.running = true → s.operations = [] → 
    ∀ (π : Type) (stored : ω → Bool) (parse : ω → List π), (s.store stored parse).Perm
      (s.objects.flatMap fun object => if stored object.2 then parse object.2 else [])

/-- The names an operation drops from the map when it goes on. -/
def Kind.takes : Kind → String → Bool
  | .remove name, other => decide (name = other)
  | .clear, _ => true
  | .stop, _ => false

/-- The steps after which each object has one task. -/
def Calm (s : State ω) : Action ω → Prop
  | .add name _ => s.running = true → s.stopping = false →
      s.objects = [] ∧ ∀ op ∈ s.operations, op.kind.takes (s.nameOf name) = false
  | .start => ∀ op ∈ s.operations, ∀ name ∈ s.objects.keys, op.kind.takes name = false
  | _ => True

instance (s : State ω) (a : Action ω) : Decidable (Calm s a) := by
  cases a <;> unfold Calm <;> infer_instance

/-- A waiting operation waits for everything it is about to drop. -/
def Operation.Covers (s : State ω) (op : Operation) : Prop :=
  match op.kind with
  | .remove name => ∀ task, s.tasks.get name = some task → task ∈ op.waits
  | _ => ∀ task ∈ s.live.keys, task ∈ op.waits

def Operation.stops (op : Operation) : Bool := decide (op.kind = .stop)

structure Inv (s : State ω) : Prop where
  names : s.objects.keys.Nodup
  ids : s.live.keys.Nodup
  bound : ∀ task ∈ s.live.keys, task < s.created
  past : ∀ task ∈ s.cancelled, task < s.created
  /-- The map has forgotten no live task. -/
  mapped : ∀ task object, (task, object) ∈ s.live → s.tasks.get object.1 = some task
  /-- A task of the map is one of the object registered under the name. -/
  registered : ∀ name task, s.tasks.get name = some task →
    ∃ object, (name, object) ∈ s.objects ∧ ∀ other, (task, other) ∈ s.live → other = (name, object)
  stopped : s.running = false → s.live = [] ∧ s.tasks = [] ∧ s.stopping = false
  stops : s.operations.countP Operation.stops = if s.stopping then 1 else 0
  tasked : s.running = true → s.stopping = false → ∀ object ∈ s.objects,
    (∃ task, (task, object) ∈ s.live ∧ task ∉ s.cancelled) ∨
      ∃ op ∈ s.operations, op.kind.takes object.1 = true
  covers : ∀ op ∈ s.operations, op.Covers s

theorem inv_initial : Inv (State.initial : State ω) := by
  constructor <;> simp [State.initial, Dict.keys]

/-- What a loop over objects leaves in a manager that had no task: one new task for each. -/
structure Synced (first : Nat) (objects : Dict String ω) (tasks : Dict String Nat)
    (live : Dict Nat (String × ω)) (created : Nat) : Prop where
  objects : live.map Prod.snd = objects
  least : first ≤ created
  fresh : ∀ task ∈ live.keys, first ≤ task ∧ task < created
  ids : live.keys.Nodup
  mapped : ∀ task object, (task, object) ∈ live → tasks.get object.1 = some task
  current : ∀ name task, tasks.get name = some task → ∃ object, (task, (name, object)) ∈ live

theorem Synced.createTask {first created : Nat} {objects : Dict String ω} {tasks : Dict String Nat}
    {live : Dict Nat (String × ω)} (h : Synced first objects tasks live created)
    {object : String × ω} (hname : object.1 ∉ objects.keys) :
    Synced first (objects ++ [object]) (tasks.set object.1 created) (live ++ [(created, object)])
      (created + 1) := by
  have hkeys : Dict.keys (live ++ [(created, object)]) = live.keys ++ [created] := by
    simp [Dict.keys]
  refine ⟨?_, ?_, ?_, ?_, ?_, ?_⟩
  · rw [List.map_append, h.objects]
    rfl
  · exact Nat.le_succ_of_le h.least
  · intro task htask
    rw [hkeys, List.mem_append, List.mem_singleton] at htask
    rcases htask with hold | rfl
    · exact ⟨(h.fresh task hold).1, Nat.lt_succ_of_lt (h.fresh task hold).2⟩
    · exact ⟨h.least, Nat.lt_succ_self _⟩
  · rw [hkeys]
    refine List.Nodup.append h.ids (List.nodup_singleton _) fun task hold hnew => ?_
    rw [List.mem_singleton.mp hnew] at hold
    exact Nat.lt_irrefl _ (h.fresh _ hold).2
  · intro task other hmem
    rw [Dict.get_set]
    rcases List.mem_append.mp hmem with hold | hnew
    · -- an object of the loop before this one has another name
      have hother : other ∈ objects := h.objects ▸ List.mem_map_of_mem hold
      have hne : object.1 ≠ other.1 := fun heq => hname (heq ▸ Dict.mem_keys_of_mem hother)
      rw [if_neg hne]
      exact h.mapped task other hold
    · obtain ⟨rfl, rfl⟩ := Prod.mk.inj (List.mem_singleton.mp hnew)
      rw [if_pos rfl]
  · intro name task hget
    rw [Dict.get_set] at hget
    by_cases heq : object.1 = name
    · rw [if_pos heq, Option.some.injEq] at hget
      subst heq hget
      exact ⟨object.2, List.mem_append_right _ (List.mem_singleton_self _)⟩
    · rw [if_neg heq] at hget
      obtain ⟨other, hother⟩ := h.current name task hget
      exact ⟨other, List.mem_append_left _ hother⟩

theorem foldl_createTask {first : Nat} :
    ∀ (rest before : Dict String ω) (s : State ω), (before ++ rest).keys.Nodup →
      Synced first before s.tasks s.live s.created → ∃ tasks live created, rest.foldl State.createTask s =
          { s with tasks := tasks, live := live, created := created } ∧
        Synced first (before ++ rest) tasks live created
  | [], before, s, _, h => ⟨s.tasks, s.live, s.created, rfl, by rwa [List.append_nil]⟩
  | object :: rest, before, s, hnames, h => by
    have hname : object.1 ∉ before.keys := by
      intro hmem
      rw [Dict.keys, List.map_append, List.map_cons] at hnames
      exact (List.nodup_append.mp hnames).2.2 _ hmem _ List.mem_cons_self rfl
    rw [List.append_cons] at hnames
    obtain ⟨tasks, live, created, heq, hsynced⟩ :=
      foldl_createTask rest (before ++ [object]) (s.createTask object) hnames (h.createTask hname)
    refine ⟨tasks, live, created, heq, ?_⟩
    rwa [List.append_cons]

variable {s : State ω}

/-- **The loop of `_sync_tasks`** over a manager without a task. -/
theorem syncTasks_spec (hnames : s.objects.keys.Nodup) (hlive : s.live = [])
    (htasks : ∀ name, s.tasks.get name = none) : ∃ tasks live created,
      s.syncTasks = { s with tasks := tasks, live := live, created := created } ∧
        Synced s.created s.objects tasks live created := by
  have hempty : Synced s.created ([] : Dict String ω) s.tasks s.live s.created := by
    rw [hlive]
    constructor <;> simp [Dict.keys, htasks]
  exact foldl_createTask s.objects [] s hnames hempty

/-- A manager that gets its first tasks, while nothing waits that would drop one of them. -/
theorem sync_inv (hnames : s.objects.keys.Nodup) (hlive : s.live = [])
    (htasks : ∀ name, s.tasks.get name = none) (hpast : ∀ task ∈ s.cancelled, task < s.created)
    (hrunning : s.running = true) (hstopping : s.stopping = false)
    (hstops : s.operations.countP Operation.stops = 0)
    (htaken : ∀ op ∈ s.operations, ∀ name ∈ s.objects.keys, op.kind.takes name = false) : Inv s.syncTasks := by
  obtain ⟨tasks, live, created, heq, h⟩ := syncTasks_spec hnames hlive htasks
  rw [heq]
  have hobject : ∀ task object, (task, object) ∈ live → object ∈ s.objects := by
    intro task object hmem
    rw [← h.objects]
    exact List.mem_map_of_mem hmem
  refine ⟨hnames, h.ids, fun task htask => (h.fresh task htask).2,
    fun task htask => Nat.lt_of_lt_of_le (hpast task htask) h.least, h.mapped, ?_, ?_, ?_, ?_, ?_⟩
  · intro name task hget
    obtain ⟨object, hmem⟩ := h.current name task hget
    exact ⟨object, hobject _ _ hmem, fun other hother => Dict.eq_of_mem h.ids hother hmem⟩
  · intro hstopped
    exact absurd (hrunning.symm.trans hstopped) (by simp)
  · simp only [hstops, hstopping]
    rfl
  · intro _ _ object hmem
    have hmap : object ∈ live.map Prod.snd := by
      rw [h.objects]
      exact hmem
    obtain ⟨⟨task, same⟩, htask, hsame⟩ := List.mem_map.mp hmap
    subst hsame
    refine .inl ⟨task, htask, fun hcancelled => ?_⟩
    -- a new task has a number that no cancelled one has
    exact Nat.lt_irrefl _
      (Nat.lt_of_lt_of_le (hpast task hcancelled) (h.fresh task (Dict.mem_keys_of_mem htask)).1)
  · intro op hop
    have hstop : op.kind ≠ .stop := by
      intro hkind
      exact List.countP_eq_zero.mp hstops op hop (by simp [Operation.stops, hkind])
    unfold Operation.Covers
    split
    · rename_i name hkind
      intro task hget
      obtain ⟨object, hmem⟩ := h.current name task hget
      have htakes := htaken op hop name (Dict.mem_keys_of_mem (hobject _ _ hmem))
      simp [hkind, Kind.takes] at htakes
    · rename_i hremove
      intro task htask
      obtain ⟨⟨same, object⟩, hmem, _⟩ := List.mem_map.mp htask
      have htakes := htaken op hop object.1 (Dict.mem_keys_of_mem (hobject _ _ hmem))
      cases hkind : op.kind with
      | remove name => exact absurd hkind (hremove name)
      | clear => simp [hkind, Kind.takes] at htakes
      | stop => exact absurd hkind hstop

theorem Inv.idle (h : Inv s) (hobjects : s.objects = []) : s.live = [] ∧ ∀ name, s.tasks.get name = none := by
  have htasks : ∀ name, s.tasks.get name = none := by
    intro name
    by_contra hsome
    obtain ⟨task, htask⟩ := Option.ne_none_iff_exists'.mp hsome
    obtain ⟨object, hmem, _⟩ := h.registered name task htask
    rw [hobjects] at hmem
    exact List.not_mem_nil hmem
  refine ⟨List.eq_nil_iff_forall_not_mem.mpr fun entry hmem => ?_, htasks⟩
  have hget := h.mapped entry.1 entry.2 hmem
  rw [htasks] at hget
  exact absurd hget (by simp)

theorem add_inv {name : String} {object : ω} (h : Inv s) (hunused : s.objects.get name = none)
    (hcalm : s.running = true → s.stopping = false → s.objects = [] ∧ ∀ op ∈ s.operations,
      op.kind.takes name = false) : Inv (s.add name object) := by
  have hnames := @Dict.nodup_keys_append _ _ _ _ object h.names (Dict.get_eq_none_iff.mp hunused)
  by_cases hsync : (s.running && !s.stopping) = true
  · have hrunning := hsync
    rw [Bool.and_eq_true, Bool.not_eq_true'] at hrunning
    obtain ⟨hobjects, htakes⟩ := hcalm hrunning.1 hrunning.2
    obtain ⟨hlive, htasks⟩ := h.idle hobjects
    have hstops : s.operations.countP Operation.stops = 0 := by
      rw [h.stops, hrunning.2]
      rfl
    have hadd : s.add name object =
        State.syncTasks { s with objects := s.objects ++ [(name, object)] } := if_pos hsync
    rw [hadd]
    refine sync_inv hnames hlive htasks h.past hrunning.1 hrunning.2 hstops ?_
    intro op hop other hother
    -- the object added is the only one
    have hsame : other = name := by simpa [hobjects, Dict.keys] using hother
    rw [hsame]
    exact htakes op hop
  · have hadd : s.add name object = { s with objects := s.objects ++ [(name, object)] } :=
      if_neg hsync
    rw [hadd]
    refine ⟨hnames, h.ids, h.bound, h.past, h.mapped, ?_, h.stopped, h.stops, ?_, h.covers⟩
    · intro other task hget
      obtain ⟨old, hmem, honly⟩ := h.registered other task hget
      exact ⟨old, List.mem_append_left _ hmem, honly⟩
    · intro hrun hstop
      have hrunning : s.running = true := hrun
      have hstopping : s.stopping = false := hstop
      exact absurd (by rw [hrunning, hstopping]; rfl) hsync

theorem start_inv (h : Inv s) (hrunning : s.running = false)
    (hcalm : ∀ op ∈ s.operations, ∀ name ∈ s.objects.keys, op.kind.takes name = false) :
    Inv (State.syncTasks { s with running := true }) := by
  obtain ⟨hlive, htasks, hstopping⟩ := h.stopped hrunning
  have hstops : s.operations.countP Operation.stops = 0 := by
    rw [h.stops, hstopping]
    rfl
  refine sync_inv h.names hlive ?_ h.past rfl hstopping hstops hcalm
  intro name
  rw [htasks]
  rfl

/-- What an operation drops has ended. -/
def Kind.Ready (s : State ω) : Kind → Prop
  | .remove name => ∀ task, s.tasks.get name = some task → task ∉ s.live.keys
  | _ => s.live = []

theorem Operation.covers_idle (op : Operation) (hlive : s.live = []) (htasks : s.tasks = []) : op.Covers s := by
  unfold Operation.Covers
  split
  · intro task hget
    rw [htasks] at hget
    exact absurd hget (by simp)
  · intro task htask
    rw [hlive] at htask
    exact absurd htask List.not_mem_nil

/-- **What an operation does after its wait**, when it leaves the list of those that wait. -/
theorem finish_inv {kind : Kind} {rest : List Operation} (h : Inv s) (hready : kind.Ready s)
    (hsub : ∀ op ∈ rest, op ∈ s.operations) (hrest : ∀ op ∈ s.operations, op ∈ rest ∨ op.kind = kind)
    (hstops : rest.countP Operation.stops = if kind = .stop then 0 else s.operations.countP Operation.stops) :
    Inv (State.finish { s with operations := rest } kind) := by
  cases kind with
  | remove name =>
    have hready : ∀ task, s.tasks.get name = some task → task ∉ s.live.keys := hready
    have hget : ∀ {other task}, (s.tasks.erase name).get other = some task →
        name ≠ other ∧ s.tasks.get other = some task := by
      intro other task hget
      rw [Dict.get_erase] at hget
      by_cases heq : name = other
      · rw [if_pos heq] at hget
        exact absurd hget (by simp)
      · rw [if_neg heq] at hget
        exact ⟨heq, hget⟩
    refine ⟨Dict.nodup_keys_erase h.names _, h.ids, h.bound, h.past, ?_, ?_, ?_, ?_, ?_, ?_⟩
    · intro task object hmem
      have hmapped := h.mapped task object hmem
      have hne : name ≠ object.1 :=
        fun heq => hready task (heq ▸ hmapped) (Dict.mem_keys_of_mem hmem)
      exact (Dict.get_erase _ _ _).trans ((if_neg hne).trans hmapped)
    · intro other task hother
      obtain ⟨hne, hold⟩ := hget hother
      obtain ⟨object, hmem, honly⟩ := h.registered other task hold
      exact ⟨object, Dict.mem_erase.mpr ⟨hmem, Ne.symm hne⟩, honly⟩
    · intro hstopped
      obtain ⟨hlive, htasks, hstopping⟩ := h.stopped hstopped
      refine ⟨hlive, ?_, hstopping⟩
      simp only [State.finish, htasks]
      rfl
    · exact (hstops.trans (if_neg (by simp))).trans h.stops
    · intro hrunning hstopping object hmem
      obtain ⟨hold, hne⟩ := Dict.mem_erase.mp hmem
      rcases h.tasked hrunning hstopping object hold with hlive | ⟨op, hop, htakes⟩
      · exact .inl hlive
      · rcases hrest op hop with hop | hkind
        · exact .inr ⟨op, hop, htakes⟩
        · rw [hkind, Kind.takes, decide_eq_true_eq] at htakes
          exact absurd htakes.symm hne
    · intro op hop
      have hcovers := h.covers op (hsub op hop)
      unfold Operation.Covers at *
      split at hcovers
      · exact fun task htask => hcovers task (hget htask).2
      · exact hcovers
  | clear =>
    have hlive : s.live = [] := hready
    refine ⟨List.nodup_nil, h.ids, h.bound, h.past, ?_, ?_, ?_, ?_, ?_, ?_⟩
    · intro task object hmem
      simp [State.finish, hlive] at hmem
    · intro name task hget
      exact absurd hget (by simp [State.finish])
    · exact fun hstopped => ⟨hlive, rfl, (h.stopped hstopped).2.2⟩
    · exact (hstops.trans (if_neg (by simp))).trans h.stops
    · intro _ _ object hmem
      exact absurd hmem List.not_mem_nil
    · exact fun op _ => op.covers_idle hlive rfl
  | stop =>
    have hlive : s.live = [] := hready
    refine ⟨h.names, h.ids, h.bound, h.past, ?_, ?_, ?_, ?_, ?_, ?_⟩
    · intro task object hmem
      simp [State.finish, hlive] at hmem
    · intro name task hget
      exact absurd hget (by simp [State.finish])
    · exact fun _ => ⟨hlive, rfl, rfl⟩
    · exact hstops
    · intro hrunning
      exact absurd hrunning (by simp [State.finish])
    · exact fun op _ => op.covers_idle hlive rfl

theorem Operation.Covers.ready {op : Operation} (h : op.Covers s)
    (hended : ∀ task ∈ op.waits, task ∉ s.live.keys) : op.kind.Ready s := by
  unfold Operation.Covers at h
  cases hkind : op.kind with
  | remove name =>
    rw [hkind] at h
    exact fun task hget => hended task (h task hget)
  | clear =>
    rw [hkind] at h
    exact List.map_eq_nil_iff.mp (List.eq_nil_iff_forall_not_mem.mpr fun task htask =>
      hended task (h task htask) htask)
  | stop =>
    rw [hkind] at h
    exact List.map_eq_nil_iff.mp (List.eq_nil_iff_forall_not_mem.mpr fun task htask =>
      hended task (h task htask) htask)

theorem Inv.mem_values (h : Inv s) {task : Nat} (htask : task ∈ s.live.keys) : task ∈ s.tasks.values := by
  obtain ⟨⟨same, object⟩, hmem, rfl⟩ := List.mem_map.mp htask
  exact List.mem_map_of_mem (Dict.mem_of_get (h.mapped _ object hmem))

/-- **An operation up to its wait**: it waits for what it is about to drop, and what it cancels it
    takes from the map. -/
theorem enter_inv {kind : Kind} {waits : List Nat} (h : Inv s) (hcovers : Operation.Covers s ⟨kind, waits⟩)
    (hstop : kind = .stop → s.running = true ∧ s.stopping = false)
    (htaken : kind ≠ .stop → ∀ task object, (task, object) ∈ s.live → task ∈ waits → kind.takes object.1 = true) :
    Inv (s.enter kind waits) := by
  unfold State.enter
  split
  · rename_i hwaits
    subst hwaits
    have hready := hcovers.ready fun task htask => absurd htask List.not_mem_nil
    refine finish_inv h hready (fun op hop => hop) (fun op hop => .inl hop) ?_
    split
    · rename_i hkind
      rw [h.stops, (hstop hkind).2]
      rfl
    · rfl
  · have hlater : ∀ op ∈ s.operations ++ [⟨kind, waits⟩], op ∈ s.operations ∨ op = ⟨kind, waits⟩ :=
      fun op hop => by simpa using hop
    refine ⟨h.names, h.ids, h.bound, ?_, h.mapped, h.registered, ?_, ?_, ?_, ?_⟩
    · intro task htask
      rcases List.mem_append.mp htask with hnew | hold
      · exact h.bound task (of_decide_eq_true (List.mem_filter.mp hnew).2)
      · exact h.past task hold
    · intro hstopped
      obtain ⟨hlive, htasks, hstopping⟩ := h.stopped hstopped
      have hkind : kind ≠ .stop := fun hkind => by
        have hrunning := (hstop hkind).1
        exact absurd (hrunning.symm.trans hstopped) (by simp)
      exact ⟨hlive, htasks, by simp [hstopping, hkind]⟩
    · simp only [List.countP_append, h.stops, List.countP_singleton]
      by_cases hkind : kind = .stop
      · simp [Operation.stops, hkind, (hstop hkind).2]
      · simp [Operation.stops, hkind]
    · intro hrunning hstopping object hmem
      rw [Bool.or_eq_false_iff, decide_eq_false_iff_not] at hstopping
      rcases h.tasked hrunning hstopping.1 object hmem with ⟨task, hlive, hcancelled⟩ | ⟨op, hop, htakes⟩
      · by_cases hwaits : task ∈ waits
        · exact .inr ⟨_, List.mem_append_right _ (List.mem_singleton_self _),
            htaken hstopping.2 task object hlive hwaits⟩
        · refine .inl ⟨task, hlive, fun hnow => ?_⟩
          rcases List.mem_append.mp hnow with hnew | hold
          · exact hwaits (List.mem_filter.mp hnew).1
          · exact hcancelled hold
      · exact .inr ⟨op, List.mem_append_left _ hop, htakes⟩
    · intro op hop
      rcases hlater op hop with hold | rfl
      · exact h.covers op hold
      · exact hcovers

theorem remove_inv (h : Inv s) (name : String) : Inv (s.enter (.remove name) (s.tasks.get name).toList) := by
  refine enter_inv h ?_ (by simp) ?_
  · intro task hget
    rw [hget]
    exact List.mem_singleton_self _
  · intro _ task object hmem hwaits
    -- the task under the name is a task of the object of that name
    obtain ⟨_, _, honly⟩ := h.registered name task (by simpa using hwaits)
    simp [Kind.takes, honly object hmem]

theorem clear_inv (h : Inv s) : Inv (s.enter .clear s.tasks.values) :=
  enter_inv h (fun _ htask => h.mem_values htask) (by simp) (fun _ _ _ _ _ => rfl)

theorem stop_inv (h : Inv s) (hrunning : s.running = true)
    (hstopping : s.stopping = false) : Inv (s.enter .stop s.tasks.values) :=
  enter_inv h (fun _ htask => h.mem_values htask) (fun _ => ⟨hrunning, hstopping⟩)
    (fun hkind => absurd rfl hkind)

theorem finished_inv {task : Nat} (h : Inv s) (hcancelled : task ∈ s.cancelled) :
    Inv { s with live := s.live.erase task } := by
  have hkeys : ∀ other ∈ (s.live.erase task).keys, other ∈ s.live.keys := by
    intro other hother
    obtain ⟨entry, hmem, rfl⟩ := List.mem_map.mp hother
    exact Dict.mem_keys_of_mem (Dict.mem_erase.mp hmem).1
  refine ⟨h.names, Dict.nodup_keys_erase h.ids _, ?_, h.past, ?_, ?_, ?_, h.stops, ?_, ?_⟩
  · exact fun other hother => h.bound other (hkeys other hother)
  · exact fun other object hmem => h.mapped other object (Dict.mem_erase.mp hmem).1
  · intro name other hget
    obtain ⟨object, hmem, honly⟩ := h.registered name other hget
    exact ⟨object, hmem, fun old hold => honly old (Dict.mem_erase.mp hold).1⟩
  · intro hstopped
    obtain ⟨hlive, htasks, hstopping⟩ := h.stopped hstopped
    refine ⟨?_, htasks, hstopping⟩
    rw [hlive]
    rfl
  · intro hrunning hstopping object hmem
    rcases h.tasked hrunning hstopping object hmem with ⟨other, hlive, hnot⟩ | hop
    · have hne : other ≠ task := fun heq => hnot (heq.symm ▸ hcancelled)
      exact .inl ⟨other, Dict.mem_erase.mpr ⟨hlive, hne⟩, hnot⟩
    · exact .inr hop
  · intro op hop
    have hcovers := h.covers op hop
    unfold Operation.Covers at *
    split at hcovers
    · exact hcovers
    · exact fun other hother => hcovers other (hkeys other hother)

theorem resume_inv {i : Nat} {op : Operation} (h : Inv s) (hop : s.operations[i]? = some op)
    (hended : ∀ task ∈ op.waits, task ∉ s.live.keys) :
    Inv (State.finish { s with operations := s.operations.eraseIdx i } op.kind) := by
  have hmem : op ∈ s.operations := List.mem_of_getElem? hop
  obtain ⟨hi, hget⟩ := List.getElem?_eq_some_iff.mp hop
  have hperm : (op :: s.operations.eraseIdx i).Perm s.operations := by
    rw [← hget]
    exact List.getElem_cons_eraseIdx_perm hi
  refine finish_inv h ((h.covers op hmem).ready hended) ?_ ?_ ?_
  · exact fun other hother => List.mem_of_mem_eraseIdx hother
  · intro other hother
    rcases List.mem_cons.mp (hperm.mem_iff.mpr hother) with rfl | hrest
    · exact .inr rfl
    · exact .inl hrest
  · have hcount := hperm.countP_eq Operation.stops
    rw [List.countP_cons] at hcount
    split
    · rename_i hkind
      -- no more than one operation stops the manager
      have hle : s.operations.countP Operation.stops ≤ 1 := by
        rw [h.stops]
        split <;> simp
      simp only [Operation.stops, hkind, decide_true, if_true] at hcount
      exact Nat.le_zero.mp (by omega)
    · rename_i hkind
      simpa [Operation.stops, hkind] using hcount

theorem step_inv (s : State ω) (a : Action ω) (s' : State ω) (h : Inv s) (hcalm : Calm s a)
    (hstep : step s a = some s') : Inv s' := by
  cases a with
  | add name object =>
    simp only [step, Option.ite_none_right_eq_some, Option.some.injEq] at hstep
    obtain ⟨hunused, rfl⟩ := hstep
    exact add_inv h hunused hcalm
  | remove name =>
    obtain rfl := Option.some.inj hstep
    exact remove_inv h name
  | clear =>
    obtain rfl := Option.some.inj hstep
    exact clear_inv h
  | start =>
    simp only [step, Option.ite_none_left_eq_some, Option.some.injEq, Bool.not_eq_true] at hstep
    obtain ⟨hrunning, rfl⟩ := hstep
    exact start_inv h hrunning hcalm
  | stop =>
    simp only [step, Option.ite_none_right_eq_some, Option.some.injEq, Bool.and_eq_true,
      Bool.not_eq_true'] at hstep
    obtain ⟨⟨hrunning, hstopping⟩, rfl⟩ := hstep
    exact stop_inv h hrunning hstopping
  | finished task =>
    simp only [step, Option.ite_none_right_eq_some, Option.some.injEq] at hstep
    obtain ⟨⟨_, hcancelled⟩, rfl⟩ := hstep
    exact finished_inv h hcancelled
  | resume i =>
    obtain ⟨op, hop, hfinish⟩ := Option.bind_eq_some_iff.mp hstep
    simp only [Option.ite_none_right_eq_some, Option.some.injEq] at hfinish
    obtain ⟨hended, rfl⟩ := hfinish
    exact resume_inv h hop hended

theorem Inv.live_perm (h : Inv s) (hrunning : s.running = true) (hquiet : s.operations = []) :
    (s.live.map Prod.snd).Perm s.objects ∧ ∀ task ∈ s.live.keys, task ∉ s.cancelled := by
  have hstopping : s.stopping = false := by
    have hstops := h.stops
    rw [hquiet] at hstops
    by_contra hstopping
    simp [Bool.not_eq_false _ ▸ hstopping] at hstops
  have htasked : ∀ object ∈ s.objects, ∃ task, (task, object) ∈ s.live ∧ task ∉ s.cancelled := by
    intro object hmem
    rcases h.tasked hrunning hstopping object hmem with hlive | ⟨op, hop, _⟩
    · exact hlive
    · rw [hquiet] at hop
      exact absurd hop List.not_mem_nil
  have hobject : ∀ task object, (task, object) ∈ s.live → object ∈ s.objects := by
    intro task object hmem
    obtain ⟨_, hold, honly⟩ := h.registered object.1 task (h.mapped task object hmem)
    rw [honly object hmem]
    exact hold
  -- two live tasks of one object have one place in the map
  have hsame : ∀ task other object, (task, object) ∈ s.live → (other, object) ∈ s.live → task = other :=
    fun task other object hmem hother =>
      Option.some.inj ((h.mapped task object hmem).symm.trans (h.mapped other object hother))
  constructor
  · have hlive : (s.live.map Prod.snd).Nodup := by
      refine List.Nodup.map_on ?_ (List.Nodup.of_map _ h.ids)
      intro entry hentry other hother heq
      obtain ⟨task, object⟩ := entry
      obtain ⟨task', object'⟩ := other
      obtain rfl : object = object' := heq
      rw [hsame task task' object hentry hother]
    refine (List.perm_ext_iff_of_nodup hlive (List.Nodup.of_map _ h.names)).mpr fun object => ?_
    constructor
    · intro hmem
      obtain ⟨⟨task, same⟩, hlive, rfl⟩ := List.mem_map.mp hmem
      exact hobject task same hlive
    · intro hmem
      obtain ⟨task, hlive, _⟩ := htasked object hmem
      exact List.mem_map_of_mem hlive
  · intro task htask
    obtain ⟨⟨same, object⟩, hmem, rfl⟩ := List.mem_map.mp htask
    obtain ⟨other, hlive, hnot⟩ := htasked object (hobject _ object hmem)
    rw [hsame _ other object hmem hlive]
    exact hnot

theorem Inv.oneEach [DecidableEq ω] (h : Inv s) : OneEach s := by
  refine ⟨?_, fun hstopped => (h.stopped hstopped).1, ?_⟩
  · intro hrunning hquiet object
    rw [(h.live_perm hrunning hquiet).1.count_eq]
    split
    · rename_i hmem
      exact List.count_eq_one_of_mem (List.Nodup.of_map _ h.names) hmem
    · rename_i hmem
      exact List.count_eq_zero.mpr hmem
  · intro hrunning hquiet π stored parse
    obtain ⟨hperm, hnot⟩ := h.live_perm hrunning hquiet
    have hall : (s.live.filter fun task => decide (task.1 ∉ s.cancelled)) = s.live :=
      List.filter_eq_self.mpr fun task htask => decide_eq_true (hnot _ (Dict.mem_keys_of_mem htask))
    have hmap : s.store stored parse =
        (s.live.map Prod.snd).flatMap fun object => if stored object.2 then parse object.2 else [] := by
      rw [State.store, hall, List.flatMap_map]
    rw [hmap]
    exact hperm.flatMap_right _

/-- **One task each.** In a run in which an object is added to a running manager only as its first,
    and no task is started under a name that a waiting operation is about to drop, each object of a
    running manager has one live task when nothing waits, no other object has one, and none lives
    after the manager has stopped. -/
theorem tasks_one_each [DecidableEq ω] (actions : List (Action ω)) (t : State ω)
    (hcalm : Along step Calm State.initial actions) (hrun : run step State.initial actions = some t) :
    OneEach t :=
  (run_inv step_inv actions State.initial t inv_initial hcalm hrun).oneEach

/-- Two sieves, the second one without a name, are there before the manager starts; the first is
    removed at run time. -/
def calmRun : List (Action Nat) :=
  [.add (some "a") 7, .add none 8, .start, .remove "a", .finished 0, .resume 0]

theorem tasks_one_each_calmRun :
    Along step Calm State.initial calmRun ∧
      ∃ t, run step State.initial calmRun = some t ∧ t.objects = [("2", 8)] ∧ t.running = true ∧
        OneEach t := by
  refine ⟨by decide, _, rfl, by decide, by decide, ?_⟩
  exact tasks_one_each calmRun _ (by decide) rfl

/-- **A second object added at run time.** `_sync_tasks` starts a task for every object, so the first
    one then has two. -/
theorem sync_starts_second_task :
    ¬ ∀ (actions : List (Action Nat)) (t : State Nat),
      run step State.initial actions = some t → OneEach t := by
  intro h
  have hone := (h [.start, .add (some "a") 7, .add (some "b") 8] _ rfl).one rfl rfl ("a", 7)
  exact absurd hone (by decide)

end Ceres.Component.TaskManager
