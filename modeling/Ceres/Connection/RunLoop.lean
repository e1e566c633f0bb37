/-
  File:      Ceres/Connection/RunLoop.lean
  Subject:   THE CONNECTION LOOP (`ceres/connection/__init__.py`: `Connection.__run__`, `connect`, `disconnect`).

  The loop runs between its awaits without giving the event loop a turn. A state tells the place in the code;
  at some places the loop is suspended until the event loop resumes it, from the others it goes on by itself.

  * `Config`, `State`, `Place` -- the fields of a connection and what `__run__` holds;
  * `advance` -- the code at a place, with one reading of the clock; `resume` -- how an await ends, and what
    other tasks do meanwhile;
  * `Reachable`, `Hangs` -- the runs of the loop, and code that goes on forever without an await;
  * `turn_spec` -- one turn of the outer loop without an await;
  * **`loop_yields_iff`** -- the loop reaches an await from every state exactly if there is a reconnect
    schedule whose triggers, fresh from it, always come to a next fire time;
  * `no_schedule_hangs` -- without a schedule the first failed connection hangs it.
-/
import Ceres.Component.Schedule
import Ceres.Connection.Buffer

namespace Ceres.Connection

open Ceres.Component.Schedule

/-! ## 1. The loop -/

inductive Connectivity where
  | disconnected | connecting | connected
  deriving DecidableEq

/-- A clock: which reading can follow on which. -/
structure Clock where
  follows : DateTime → DateTime → Prop
  refl : ∀ t, follows t t

/-- A clock that never goes back. -/
def Clock.steady : Clock := ⟨(· ≤ ·), le_refl⟩

/-- The fields of a connection that the loop reads. -/
structure Config where
  /-- `reconnect_schedule`, as the trigger that `create_trigger` makes at an instant. -/
  reconnectSchedule : Option (DateTime → Trigger)
  /-- `splitter`, as the end indices it yields for a buffer. -/
  splitter : Buffer → List Int
  bufferSize : Int
  bufferDrop : Int

/-- A place in `__run__`. -/
inductive Place where
  /-- The outer loop: the trigger is created. -/
  | outer
  /-- The inner loop: a delay is asked for. -/
  | retry (trigger : Option Trigger)
  /-- Suspended in the delay. -/
  | delaying (trigger : Option Trigger)
  /-- Suspended in `sleep(0)`. -/
  | yielding (trigger : Option Trigger)
  /-- `connect` is called. -/
  | dial (trigger : Option Trigger)
  /-- Suspended in `source.connect`. -/
  | connecting (trigger : Option Trigger)
  /-- The receive loop. -/
  | reading
  /-- Suspended in `source.receive`. -/
  | receiving
  /-- Suspended in the `sleep(0)` behind it. -/
  | settling (received : Option (List UInt8))
  /-- What was received is handled. -/
  | handle (received : Option (List UInt8))
  /-- Suspended in `source.disconnect`, in the `finally` clause or before. -/
  | disconnecting (final : Bool)
  /-- The `finally` clause. -/
  | closing
  | stopped

/-- The loop is suspended, or over. -/
def Place.waits : Place → Bool
  | delaying _ | yielding _ | connecting _ | receiving | settling _ | disconnecting _ | stopped => true
  | outer | retry _ | dial _ | reading | handle _ | closing => false

structure State where
  place : Place := .outer
  initialized : Bool := false
  connectivity : Connectivity := .disconnected
  buffer : Buffer := {}
  /-- The messages received, in the order they are stored in. -/
  stored : List Chunk := []
  /-- The last reading of the clock. -/
  clock : DateTime

/-- What was received goes into the buffer, what the splitter ends comes out as messages; an exception ends
    the loop. -/
def handleData (config : Config) (now : DateTime) (s : State) (data : List UInt8) : State :=
  match s.buffer.push now (.bytes data) (some (.datetime now)) with
  | none => { s with place := .closing, clock := now }
  | some pushed =>
    match pushed.popTo config.bufferSize config.bufferDrop with
    | none => { s with place := .closing, buffer := pushed, clock := now }
    | some (_, kept) =>
      let drained := kept.drain (config.splitter kept) true
      { s with place := .reading, buffer := drained.2, stored := s.stored ++ drained.1, clock := now }

/-- The code at a place, up to the next place; `now` is what the clock shows if it is read. `none` where the
    loop waits. -/
def advance (config : Config) (now : DateTime) (s : State) : Option State :=
  match s.place with
  | .outer =>
    match config.reconnectSchedule with
    | none => some { s with place := .retry none }
    | some create => some { s with place := .retry (some (create now)), clock := now }
  | .retry trigger =>
    if s.initialized then
      match trigger with
      | none => some { s with place := .reading }
      | some next =>
        match next none now with
        | none => some { s with place := .reading, clock := now }
        | some _ => some { s with place := .delaying trigger, clock := now }
    else some { s with place := .yielding trigger }
  | .dial trigger =>
    if s.connectivity = .connected then some { s with place := .reading, initialized := true }
    else some { s with place := .connecting trigger, connectivity := .connecting }
  | .reading =>
    if s.connectivity = .connected then some { s with place := .receiving }
    else some { s with place := .outer }
  | .handle received =>
    match received with
    | none | some [] =>
      if s.connectivity = .connected then some { s with place := .disconnecting false }
      else some { s with place := .outer }
    | some (byte :: rest) => some (handleData config now s (byte :: rest))
  | .closing =>
    if s.connectivity = .disconnected then some { s with place := .stopped }
    else some { s with place := .disconnecting true }
  | .delaying _ | .yielding _ | .connecting _ | .receiving | .settling _ | .disconnecting _ | .stopped => none

/-- What ends an await, or happens during one. -/
inductive Event where
  /-- A sleep is over. -/
  | slept
  /-- `source.connect` returns whether there is a connection, or fails. -/
  | connects (ok : Bool)
  /-- `source.receive` returns, `none` if it fails or takes too long. -/
  | receives (data : Option (List UInt8))
  /-- `source.disconnect` returns, or fails. -/
  | disconnects (fails : Bool)
  /-- The task is cancelled. -/
  | cancelled
  /-- Another task connects or disconnects, as `send` does when it fails. -/
  | elsewhere (connectivity : Connectivity)

/-- The end of `disconnect`. -/
def State.disconnected (s : State) : State := { s with connectivity := .disconnected, buffer := s.buffer.clear }

/-- The state after an event, `none` where it cannot happen. -/
def resume (s : State) : Event → Option State
  | .slept =>
    match s.place with
    | .delaying trigger => some { s with place := .yielding trigger }
    | .yielding trigger => some { s with place := .dial trigger }
    | .settling received => some { s with place := .handle received }
    | _ => none
  | .connects ok =>
    match s.place with
    | .connecting trigger =>
      if ok then some { s with place := .reading, connectivity := .connected, initialized := true }
      else some { s with place := .retry trigger, connectivity := .disconnected, initialized := true }
    | _ => none
  | .receives data =>
    match s.place with
    | .receiving => some { s with place := .settling data }
    | _ => none
  | .disconnects fails =>
    match s.place with
    | .disconnecting true => some { s.disconnected with place := .stopped }
    | .disconnecting false => some { s.disconnected with place := if fails then .closing else .outer }
    | _ => none
  | .cancelled =>
    match s.place with
    | .disconnecting true => some { s.disconnected with place := .stopped }
    | .disconnecting false => some { s.disconnected with place := .closing }
    | .stopped => none
    | place => if place.waits then some { s with place := .closing } else none
  | .elsewhere connectivity =>
    if s.place.waits then
      match connectivity with
      | .disconnected => some s.disconnected
      | connectivity => some { s with connectivity }
    else none

/-- The code goes on without an await. -/
def Silent (config : Config) (clock : Clock) (s s' : State) : Prop :=
  ∃ now, clock.follows s.clock now ∧ advance config now s = some s'

/-- The states of the runs. -/
inductive Reachable (config : Config) (clock : Clock) : State → Prop where
  | start (now : DateTime) : Reachable config clock { clock := now }
  | advance {s s' : State} (h : Reachable config clock s) (hstep : Silent config clock s s') :
    Reachable config clock s'
  | resume {s s' : State} (h : Reachable config clock s) (event : Event) (hstep : resume s event = some s') :
    Reachable config clock s'

/-- The code can go on forever without an await. -/
def Hangs (config : Config) (clock : Clock) (s : State) : Prop :=
  ∃ path : Nat → State, path 0 = s ∧ ∀ n, Silent config clock (path n) (path (n + 1))

/-- There is a schedule, and triggers fresh from it do not go on without a next fire time, whatever the clock
    shows when they are made and asked. -/
def Config.Answers (config : Config) (clock : Clock) : Prop :=
  ∃ create, config.reconnectSchedule = some create ∧ ∀ reading : Nat → DateTime,
    (∀ n, clock.follows (reading n) (reading (n + 1))) →
      ∃ n, create (reading (2 * n)) none (reading (2 * n + 1)) ≠ none

/-! ## 2. Code without an await -/

section Turns

variable {config : Config} {clock : Clock}

theorem not_waits {s s' : State} (h : Silent config clock s s') : s.place.waits = false := by
  obtain ⟨now, -, hstep⟩ := h
  unfold advance at hstep
  cases hplace : s.place <;> rw [hplace] at hstep <;> first | rfl | cases hstep

/-- How far a place is from the outer loop, or from an await. -/
def Place.rank : Place → Nat
  | outer => 0
  | reading | closing => 1
  | retry _ | dial _ => 2
  | handle _ => 3
  | delaying _ | yielding _ | connecting _ | receiving | settling _ | disconnecting _ | stopped => 0

theorem handleData_place (now : DateTime) (s : State) (data : List UInt8) :
    (handleData config now s data).place = .closing ∨ (handleData config now s data).place = .reading := by
  unfold handleData
  cases s.buffer.push now (.bytes data) (some (.datetime now)) with
  | none => exact .inl rfl
  | some pushed =>
    dsimp only
    cases pushed.popTo config.bufferSize config.bufferDrop with
    | none => exact .inl rfl
    | some popped => exact .inr rfl

/-- **One step** from elsewhere comes nearer to the outer loop, or to an await. -/
theorem advance_rank {s s' : State} (h : Silent config clock s s') (hplace : s.place ≠ .outer) :
    s'.place.waits = true ∨ s'.place.rank < s.place.rank := by
  obtain ⟨now, -, hstep⟩ := h
  unfold advance at hstep
  cases hs : s.place with
  | outer => exact absurd hs hplace
  | retry trigger =>
    rw [hs] at hstep
    dsimp only at hstep
    split at hstep
    · cases trigger with
      | none =>
        obtain rfl := Option.some.inj hstep
        exact .inr (by simp [Place.rank])
      | some next =>
        dsimp only at hstep
        split at hstep <;> obtain rfl := Option.some.inj hstep
        · exact .inr (by simp [Place.rank])
        · exact .inl rfl
    · obtain rfl := Option.some.inj hstep
      exact .inl rfl
  | dial trigger =>
    rw [hs] at hstep
    dsimp only at hstep
    split at hstep <;> obtain rfl := Option.some.inj hstep
    · exact .inr (by simp [Place.rank])
    · exact .inl rfl
  | reading =>
    rw [hs] at hstep
    dsimp only at hstep
    split at hstep <;> obtain rfl := Option.some.inj hstep
    · exact .inl rfl
    · exact .inr (by simp [Place.rank])
  | handle received =>
    rw [hs] at hstep
    dsimp only at hstep
    split at hstep
    · split at hstep <;> obtain rfl := Option.some.inj hstep
      · exact .inl rfl
      · exact .inr (by simp [Place.rank])
    · split at hstep <;> obtain rfl := Option.some.inj hstep
      · exact .inl rfl
      · exact .inr (by simp [Place.rank])
    · obtain rfl := Option.some.inj hstep
      rcases handleData_place now s _ with hplace' | hplace' <;> rw [hplace'] <;> exact .inr (by simp [Place.rank])
  | closing =>
    rw [hs] at hstep
    dsimp only at hstep
    split at hstep <;> obtain rfl := Option.some.inj hstep <;> exact .inl rfl
  | delaying _ | yielding _ | connecting _ | receiving | settling _ | disconnecting _ | stopped =>
    rw [hs] at hstep
    cases hstep

/-- Code that hangs comes back to the outer loop. -/
theorem exists_outer {path : Nat → State} (hpath : ∀ n, Silent config clock (path n) (path (n + 1))) :
    ∃ n, (path n).place = .outer := by
  have hreach : ∀ rank n, (path n).place.rank = rank → ∃ m, (path m).place = .outer := by
    intro rank
    induction rank using Nat.strong_induction_on with
    | _ rank ih =>
      intro n hrank
      by_cases houter : (path n).place = .outer
      · exact ⟨n, houter⟩
      · rcases advance_rank (hpath n) houter with hwaits | hlt
        · rw [not_waits (hpath (n + 1))] at hwaits
          cases hwaits
        · exact ih _ (hrank ▸ hlt) (n + 1) rfl
  exact hreach _ 0 rfl

/-- **One turn of the outer loop without an await**: the connection is not connected, and there is no schedule
    or its trigger has no next fire time. -/
theorem turn_spec {s₀ s₁ s₂ s₃ s₄ : State} (hplace : s₀.place = .outer) (h₁ : Silent config clock s₀ s₁)
    (h₂ : Silent config clock s₁ s₂) (h₃ : Silent config clock s₂ s₃) (h₄ : Silent config clock s₃ s₄) :
    s₃.place = .outer ∧ ∀ create, config.reconnectSchedule = some create → ∃ created asked,
      clock.follows s₀.clock created ∧ clock.follows created asked ∧ s₃.clock = asked ∧
        create created none asked = none := by
  have hlast := not_waits h₄
  have hthird := not_waits h₃
  obtain ⟨now, hcreated, hstep⟩ := h₁
  obtain ⟨now', hasked, hstep'⟩ := h₂
  obtain ⟨now'', -, hstep''⟩ := h₃
  -- the receive loop is only left where nothing is connected
  have hreading : s₂.place = .reading → s₃.place = .outer ∧ s₃.clock = s₂.clock := by
    intro hreading
    rw [advance, hreading] at hstep''
    dsimp only at hstep''
    split at hstep'' <;> obtain rfl := Option.some.inj hstep''
    · cases hlast
    · exact ⟨rfl, rfl⟩
  rw [advance, hplace] at hstep
  cases hschedule : config.reconnectSchedule with
  | none =>
    rw [hschedule] at hstep
    obtain rfl := Option.some.inj hstep
    rw [advance] at hstep'
    dsimp only at hstep'
    split at hstep' <;> obtain rfl := Option.some.inj hstep'
    · exact ⟨(hreading rfl).1, fun create h => by cases h⟩
    · cases hthird
  | some create =>
    rw [hschedule] at hstep
    obtain rfl := Option.some.inj hstep
    rw [advance] at hstep'
    dsimp only at hstep'
    split at hstep'
    · cases hnext : create now none now' with
      | none =>
        rw [hnext] at hstep'
        obtain rfl := Option.some.inj hstep'
        refine ⟨(hreading rfl).1, fun create' hcreate => ?_⟩
        obtain rfl := Option.some.inj hcreate
        exact ⟨now, now', hcreated, hasked, (hreading rfl).2, hnext⟩
      | some time =>
        rw [hnext] at hstep'
        obtain rfl := Option.some.inj hstep'
        cases hthird
    · obtain rfl := Option.some.inj hstep'
      cases hthird

/-- **A schedule that answers** leads to an await. -/
theorem not_hangs (h : config.Answers clock) (s : State) : ¬ Hangs config clock s := by
  rintro ⟨path, -, hpath⟩
  obtain ⟨create, hschedule, hanswers⟩ := h
  obtain ⟨first, hfirst⟩ := exists_outer hpath
  have hturn : ∀ k, (path (first + 3 * k)).place = .outer := by
    intro k
    induction k with
    | zero => exact hfirst
    | succ k ih => exact (turn_spec ih (hpath _) (hpath _) (hpath _) (hpath _)).1
  have hreadings : ∀ k, ∃ created asked, clock.follows (path (first + 3 * k)).clock created ∧
      clock.follows created asked ∧ (path (first + 3 * (k + 1))).clock = asked ∧
        create created none asked = none :=
    fun k => (turn_spec (hturn k) (hpath _) (hpath _) (hpath _) (hpath _)).2 create hschedule
  choose created asked hcreated hasked hclock hnone using hreadings
  obtain ⟨n, hn⟩ := hanswers (fun m => if m % 2 = 0 then created (m / 2) else asked (m / 2)) (by
    intro m
    rcases Nat.mod_two_eq_zero_or_one m with heven | hodd
    · have hnext : (m + 1) % 2 ≠ 0 := by omega
      rw [if_pos heven, if_neg hnext, show (m + 1) / 2 = m / 2 by omega]
      exact hasked _
    · have hnext : (m + 1) % 2 = 0 := by omega
      rw [if_neg (by omega), if_pos hnext, show (m + 1) / 2 = m / 2 + 1 by omega, ← hclock]
      exact hcreated _)
  rw [if_pos (by omega), if_neg (by omega), show 2 * n / 2 = n by omega, show (2 * n + 1) / 2 = n by omega] at hn
  exact hn (hnone n)

/-! ## 3. Code that hangs -/

/-- The loop after a lost connection. -/
def lost (t : DateTime) : State := { initialized := true, clock := t }

theorem lost_reachable (config : Config) (clock : Clock) (t : DateTime) : Reachable config clock (lost t) := by
  have hsilent : ∀ {s s' : State}, s.clock = t → advance config t s = some s' → Silent config clock s s' :=
    fun hclock hstep => ⟨t, hclock ▸ clock.refl t, hstep⟩
  obtain ⟨trigger, hcreated⟩ : ∃ trigger, advance config t { clock := t } =
      some { place := .retry trigger, clock := t } := by
    unfold advance
    cases config.reconnectSchedule with
    | none => exact ⟨none, rfl⟩
    | some create => exact ⟨some (create t), rfl⟩
  have hcreate := Reachable.advance (.start t) (hsilent rfl hcreated)
  have hyield := Reachable.advance hcreate (hsilent rfl rfl)
  have hdial := Reachable.resume hyield .slept rfl
  have hconnecting := Reachable.advance hdial (hsilent rfl rfl)
  have hconnected := Reachable.resume hconnecting (.connects true) rfl
  have hreceiving := Reachable.advance hconnected (hsilent rfl rfl)
  have hsettling := Reachable.resume hreceiving (.receives none) rfl
  have hhandle := Reachable.resume hsettling .slept rfl
  have hlosing := Reachable.advance hhandle (hsilent rfl rfl)
  exact Reachable.resume hlosing (.disconnects false) rfl

theorem hangs_of_silent {s s' : State} (hstep : Silent config clock s s') (h : Hangs config clock s') :
    Hangs config clock s := by
  obtain ⟨path, rfl, hpath⟩ := h
  refine ⟨fun n => Nat.casesOn n s path, rfl, fun n => ?_⟩
  cases n with
  | zero => exact hstep
  | succ n => exact hpath n

theorem hangs_unscheduled (hschedule : config.reconnectSchedule = none) (t : DateTime) :
    Hangs config clock (lost t) := by
  refine ⟨fun n => { lost t with
    place := if n % 3 = 0 then .outer else if n % 3 = 1 then .retry none else .reading }, rfl, fun n => ?_⟩
  have hthree : n % 3 = 0 ∧ (n + 1) % 3 = 1 ∨ n % 3 = 1 ∧ (n + 1) % 3 = 2 ∨ n % 3 = 2 ∧ (n + 1) % 3 = 0 := by omega
  refine ⟨t, clock.refl t, ?_⟩
  dsimp only
  rcases hthree with ⟨hn, hn'⟩ | ⟨hn, hn'⟩ | ⟨hn, hn'⟩ <;> rw [hn, hn']
  · unfold advance
    rw [hschedule]
    rfl
  · rfl
  · rfl

/-- The turns of a loop without an await, at the readings of a clock. -/
def spin (trigger : Nat → Trigger) (reading : Nat → DateTime) (n : Nat) : State :=
  if n % 3 = 0 then lost (reading (2 * (n / 3) - 1))
  else if n % 3 = 1 then { lost (reading (2 * (n / 3))) with place := .retry (some (trigger (n / 3))) }
  else { lost (reading (2 * (n / 3) + 1)) with place := .reading }

theorem hangs_exhausted {create : DateTime → Trigger} (hschedule : config.reconnectSchedule = some create)
    {reading : Nat → DateTime} (hfollows : ∀ n, clock.follows (reading n) (reading (n + 1)))
    (hnone : ∀ n, create (reading (2 * n)) none (reading (2 * n + 1)) = none) :
    Hangs config clock (lost (reading 0)) := by
  have houter : ∀ t now, advance config now (lost t) =
      some { lost now with place := .retry (some (create now)) } := by
    intro t now
    simp only [advance, lost, hschedule]
  have hretry : ∀ t now trigger, trigger none now = none →
      advance config now { lost t with place := .retry (some trigger) } = some { lost now with place := .reading } := by
    intro t now trigger htrigger
    simp only [advance, lost, if_true, htrigger]
  refine ⟨spin (fun k => create (reading (2 * k))) reading, rfl, fun n => ?_⟩
  have hthree : n % 3 = 0 ∨ n % 3 = 1 ∨ n % 3 = 2 := by omega
  unfold spin
  rcases hthree with hn | hn | hn
  · rw [if_pos hn, if_neg (by omega), if_pos (by omega), show (n + 1) / 3 = n / 3 by omega]
    refine ⟨reading (2 * (n / 3)), ?_, houter _ _⟩
    show clock.follows (reading (2 * (n / 3) - 1)) (reading (2 * (n / 3)))
    cases hturn : n / 3 with
    | zero => exact clock.refl _
    | succ k =>
      have hstep := hfollows (2 * (k + 1) - 1)
      rwa [show 2 * (k + 1) - 1 + 1 = 2 * (k + 1) by omega] at hstep
  · rw [if_neg (by omega), if_pos hn, if_neg (by omega), if_neg (by omega), show (n + 1) / 3 = n / 3 by omega]
    exact ⟨reading (2 * (n / 3) + 1), hfollows _, hretry _ _ _ (hnone _)⟩
  · rw [if_neg (by omega), if_neg (by omega), if_pos (by omega),
      show 2 * ((n + 1) / 3) - 1 = 2 * (n / 3) + 1 by omega]
    exact ⟨reading (2 * (n / 3) + 1), clock.refl _, rfl⟩

/-- **Without an answer the loop hangs.** -/
theorem exists_hangs (h : ¬ config.Answers clock) : ∃ s, Reachable config clock s ∧ Hangs config clock s := by
  cases hschedule : config.reconnectSchedule with
  | none => exact ⟨lost 0, lost_reachable config clock 0, hangs_unscheduled hschedule 0⟩
  | some create =>
    have hreading : ∃ reading : Nat → DateTime, (∀ n, clock.follows (reading n) (reading (n + 1))) ∧
        ∀ n, create (reading (2 * n)) none (reading (2 * n + 1)) = none := by
      by_contra hno
      push Not at hno
      exact h ⟨create, hschedule, hno⟩
    obtain ⟨reading, hfollows, hnone⟩ := hreading
    exact ⟨lost (reading 0), lost_reachable config clock _, hangs_exhausted hschedule hfollows hnone⟩

/-- **The loop always yields** exactly if there is a reconnect schedule and triggers fresh from it come to a next
    fire time. -/
theorem loop_yields_iff (config : Config) (clock : Clock) :
    (∀ s, Reachable config clock s → ¬ Hangs config clock s) ↔ config.Answers clock := by
  refine ⟨fun h => ?_, fun h s _ => not_hangs h s⟩
  by_contra hno
  obtain ⟨s, hreachable, hhangs⟩ := exists_hangs hno
  exact h s hreachable hhangs

/-- A connection without a reconnect schedule. -/
def unscheduled : Config := ⟨none, fun _ => [], 65536, 4096⟩

/-- Its first attempt to connect fails, and it never awaits again. -/
theorem no_schedule_hangs : ∃ s s', resume s (.connects false) = some s' ∧ Reachable unscheduled .steady s ∧
    Hangs unscheduled .steady s' := by
  have hsilent : ∀ {s s' : State}, s.clock = 0 → advance unscheduled 0 s = some s' → Silent unscheduled .steady s s' :=
    fun hclock hstep => ⟨0, hclock ▸ le_refl _, hstep⟩
  have hcreate := Reachable.advance (.start 0) (hsilent rfl rfl)
  have hyield := Reachable.advance hcreate (hsilent rfl rfl)
  have hdial := Reachable.resume hyield .slept rfl
  refine ⟨_, _, rfl, Reachable.advance hdial (hsilent rfl rfl), ?_⟩
  have houter : Hangs unscheduled .steady (lost 0) := hangs_unscheduled rfl 0
  exact hangs_of_silent (hsilent rfl rfl) (hangs_of_silent (hsilent rfl rfl) houter)

end Turns

end Ceres.Connection
