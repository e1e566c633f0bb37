/-
  File:      Ceres/Database/Writer.lean
  Subject:   THE BUFFERED WRITER (`ceres/__internal__/database/writer.py`).

  Entities collect in a buffer; a flush call moves them into a batch of its own, waits for the batch
  before it and writes. A call runs undisturbed between two awaits, so a step of the system is one
  such stretch: the start of a call, its resumption, the end of its write (with success, with an
  error of `write_failures`) or its cancellation.

  * `Writer` -- the object; `Call` -- where a flush call stands; `World` -- the object, the calls,
    the database and the subscribers, with what was added and what was stored;
  * `step` -- every transition; `calm` -- the transition is not the cancellation of a call that has
    registered a batch;
  * `World.Inv` -- the invariant of calm runs, `inv_step`, and **`run_keeps_everything`**;
  * **`calm_run_drains`** -- from wherever such a run ends, all that was added can be stored;
  * `cancelled_flush_loses` -- the run that shows why cancellations are left out.
-/
import Ceres.Library.Run

namespace Ceres.Database

open Ceres.Library

/-! ## 1. The data model -/

inductive RecordKind where
  | message
  | particle
  | alert
  | logEntry
  deriving DecidableEq, Repr

/-- What a flush summary reads of a record. -/
structure RecordKey (Address : Type) where
  kind : RecordKind
  address : Address
  timestamp : Int
  deriving DecidableEq, Repr

/-- An entity; `record` is `none` for one that is no record of the four kinds. -/
structure Entity (Id Address : Type) where
  id : Id
  record : Option (RecordKey Address)
  deriving DecidableEq, Repr

/-- One flush operation and its completion signal. -/
structure Flush (Id Address : Type) where
  entities : List (Entity Id Address)
  event : Bool := false
  deriving DecidableEq, Repr

/-- The writer. `heap` holds the flush objects in the order of their creation, and `flushes` the
    deque of references to them. -/
structure Writer (Id Address : Type) where
  buffer : List (Entity Id Address) := []
  heap : List (Flush Id Address) := []
  flushes : List Nat := []
  settled : Bool := true
  deriving DecidableEq, Repr

/-- A flush call at one of its awaits: for the latest flush with nothing to write, for the
    flush before its own, or for the database to write the entities it was given. -/
inductive Call (Id Address : Type) where
  | idle (previous : Nat)
  | waiting (flush previous : Nat)
  | writing (flush : Nat) (entities : List (Entity Id Address))
  deriving DecidableEq, Repr

variable {Id Address : Type}

def Call.isIdle : Call Id Address → Bool
  | idle _ => true
  | _ => false

def Call.isWriting : Call Id Address → Bool
  | writing _ _ => true
  | _ => false

/-- The keys one flush wrote, by record kind and address, in flush order. -/
abbrev Summary (Id Address : Type) : Type := List ((RecordKind × Address) × List (Int × Id))

/-- A subscriber, with the summaries it heard; `since` is what was stored while it listened. -/
structure Subscriber (Id Address : Type) where
  name : Nat
  heard : List (Summary Id Address) := []
  since : List (Entity Id Address) := []

/-- The writer, its calls, the database and the subscribers; `added` and `stored` are the
    entities in the order they were added and written. -/
structure World (Id Address : Type) where
  writer : Writer Id Address := {}
  calls : List (Call Id Address) := []
  database : Id → Option (Entity Id Address) := fun _ => none
  subscribers : List (Subscriber Id Address) := []
  added : List (Entity Id Address) := []
  stored : List (Entity Id Address) := []

namespace Writer

/-- The entities of a flush object. -/
def entitiesOf (w : Writer Id Address) (f : Nat) : List (Entity Id Address) :=
  ((w.heap[f]?).map (·.entities)).getD []

/-- Whether the flush object is over. -/
def eventOf (w : Writer Id Address) (f : Nat) : Bool := ((w.heap[f]?).map (·.event)).getD false

def pending (w : Writer Id Address) : List (Entity Id Address) := w.flushes.flatMap w.entitiesOf

/-- The `empty` property. -/
def empty (w : Writer Id Address) : Bool :=
  w.buffer.isEmpty && w.flushes.all fun f => (w.entitiesOf f).isEmpty

def add (w : Writer Id Address) (e : Entity Id Address) : Writer Id Address :=
  { w with buffer := w.buffer ++ [e], settled := false }

/-- Move the buffer into a flush object at the end of the deque. -/
def register (w : Writer Id Address) : Writer Id Address :=
  { w with
    buffer := []
    heap := w.heap ++ [{ entities := w.buffer }]
    flushes := w.flushes ++ [w.heap.length] }

/-- Put the entities of a failed flush in front of the next one's, or of the buffer. The deque's
    second flush is taken for the next one. -/
def requeue (w : Writer Id Address) (f : Nat) : Writer Id Address :=
  match w.flushes with
  | _ :: next :: _ =>
    { w with heap := w.heap.modify next fun g =>
        { g with entities := w.entitiesOf f ++ g.entities } }
  | _ => { w with buffer := w.entitiesOf f ++ w.buffer }

/-- The `finally` block: signal, drop the deque's first flush, and settle when nothing is left. -/
def finish (w : Writer Id Address) (f : Nat) : Writer Id Address :=
  { w with
    heap := w.heap.modify f fun g => { g with event := true }
    flushes := w.flushes.tail
    settled := if w.buffer = [] ∧ w.flushes.tail = [] then true else w.settled }

end Writer

/-! ## 2. What the database and the subscribers get -/

section Observers

variable [DecidableEq Id] [DecidableEq Address]

def upsert (database : Id → Option (Entity Id Address)) (e : Entity Id Address) :
    Id → Option (Entity Id Address) :=
  fun id => if id = e.id then some e else database id

/-- Append a key to its entry of a summary, at the end when there is none yet. -/
def addKey : Summary Id Address → RecordKind × Address → Int × Id → Summary Id Address
  | [], place, key => [(place, [key])]
  | (other, keys) :: rest, place, key =>
    if other = place then (other, keys ++ [key]) :: rest else (other, keys) :: addKey rest place key

/-- The summary `_notify` builds of a flush. -/
def summarize (entities : List (Entity Id Address)) : Summary Id Address :=
  entities.foldl (fun summary e =>
    match e.record with
    | some r => addKey summary (r.kind, r.address) (r.timestamp, e.id)
    | none => summary) []

/-- A subscriber hears a summary that is not empty. -/
def Subscriber.hear (s : Subscriber Id Address) (written flushed : List (Entity Id Address)) :
    Subscriber Id Address :=
  { s with
    since := s.since ++ written
    heard := if summarize flushed = [] then s.heard else s.heard ++ [summarize flushed] }

/-! ## 3. The transitions -/

inductive Action (Id Address : Type) where
  | add (e : Entity Id Address)
  /-- A flush call runs to its first await, or to its end. -/
  | flush
  /-- The event a call waits for is set, and the call goes on. -/
  | resume (call : Nat)
  /-- The write of a call succeeds. -/
  | succeed (call : Nat)
  /-- The write of a call raises an error of `write_failures`. -/
  | fail (call : Nat)
  /-- A call is cancelled at its await. -/
  | cancel (call : Nat)
  | subscribe (name : Nat)
  | unsubscribe (name : Nat)

/-- A call of `flush`, up to its first await. -/
def startFlush (w : World Id Address) : World Id Address :=
  let previous := w.writer.flushes.getLast?
  if w.writer.buffer = [] then
    match previous with
    | some p => if w.writer.eventOf p then w else { w with calls := w.calls ++ [.idle p] }
    | none => w
  else
    let f := w.writer.heap.length
    let write := Call.writing f w.writer.buffer
    let call :=
      match previous with
      | some p => if w.writer.eventOf p then write else .waiting f p
      | none => write
    { w with writer := w.writer.register, calls := w.calls ++ [call] }

/-- One transition, `none` when the action is not enabled. -/
def step (w : World Id Address) : Action Id Address → Option (World Id Address)
  | .add e => some { w with writer := w.writer.add e, added := w.added ++ [e] }
  | .flush => some (startFlush w)
  | .resume i =>
    match w.calls[i]? with
    | some (.idle p) =>
      if w.writer.eventOf p then some { w with calls := w.calls.eraseIdx i } else none
    | some (.waiting f p) =>
      if w.writer.eventOf p then
        some { w with calls := w.calls.set i (.writing f (w.writer.entitiesOf f)) }
      else none
    | _ => none
  | .succeed i =>
    match w.calls[i]? with
    | some (.writing f written) =>
      some { w with
        writer := w.writer.finish f
        calls := w.calls.eraseIdx i
        database := written.foldl upsert w.database
        subscribers := w.subscribers.map fun s => s.hear written (w.writer.entitiesOf f)
        stored := w.stored ++ written }
    | _ => none
  | .fail i =>
    match w.calls[i]? with
    | some (.writing f _) =>
      some { w with writer := (w.writer.requeue f).finish f, calls := w.calls.eraseIdx i }
    | _ => none
  | .cancel i =>
    match w.calls[i]? with
    | some (.idle _) => some { w with calls := w.calls.eraseIdx i }
    -- `CancelledError` is no error of `write_failures`: only the `finally` block runs
    | some (.waiting f _) | some (.writing f _) =>
      some { w with writer := w.writer.finish f, calls := w.calls.eraseIdx i }
    | none => none
  | .subscribe name => some { w with subscribers := w.subscribers ++ [{ name }] }
  | .unsubscribe name =>
    some { w with subscribers := w.subscribers.filter fun s => s.name ≠ name }

/-- The action does not cancel a call that has registered a flush. -/
def calm (w : World Id Address) : Action Id Address → Bool
  | .cancel i => (w.calls[i]?).all Call.isIdle
  | _ => true

end Observers

/-! ## 4. The queue of calls -/

/-- The calls behind the flush `q`: each waits for the flush before its own. -/
def Behind (q : Nat) : List (Call Id Address) → List Nat → Prop
  | [], [] => True
  | .idle _ :: calls, flushes => Behind q calls flushes
  | .waiting f p :: calls, g :: flushes => f = g ∧ p = q ∧ Behind f calls flushes
  | _, _ => False

/-- The calls of a deque: the first one writes, or what it waits for is over. -/
def Front (w : Writer Id Address) : List (Call Id Address) → List Nat → Prop
  | [], [] => True
  | .idle _ :: calls, flushes => Front w calls flushes
  | .waiting f p :: calls, g :: flushes => f = g ∧ w.eventOf p = true ∧ Behind f calls flushes
  | .writing f entities :: calls, g :: flushes =>
    f = g ∧ entities = w.entitiesOf f ∧ Behind f calls flushes
  | _, _ => False

theorem behind_idle : ∀ (pre : List (Call Id Address)) {q p : Nat} {post : List (Call Id Address)}
    {flushes : List Nat}, Behind q (pre ++ .idle p :: post) flushes → Behind q (pre ++ post) flushes
  | [], _, _, _, _, h => h
  | .idle _ :: pre, _, _, _, _, h => behind_idle pre h
  | .waiting _ _ :: pre, _, _, _, _ :: _, h => ⟨h.1, h.2.1, behind_idle pre h.2.2⟩

variable {w : Writer Id Address}

theorem front_idle : ∀ (pre : List (Call Id Address)) {p : Nat}
    {post : List (Call Id Address)} {flushes : List Nat},
    Front w (pre ++ .idle p :: post) flushes → Front w (pre ++ post) flushes
  | [], _, _, _, h => h
  | .idle _ :: pre, _, _, _, h => front_idle pre h
  | .waiting _ _ :: pre, _, _, _ :: _, h => ⟨h.1, h.2.1, behind_idle pre h.2.2⟩
  | .writing _ _ :: pre, _, _, _ :: _, h => ⟨h.1, h.2.1, behind_idle pre h.2.2⟩

theorem front_append_idle : ∀ (pre : List (Call Id Address))
    {post : List (Call Id Address)} {flushes : List Nat}, (∀ c ∈ pre, c.isIdle = true) → Front w post flushes →
      Front w (pre ++ post) flushes
  | [], _, _, _, h => h
  | .idle _ :: pre, _, _, hpre, h =>
      front_append_idle pre (fun c hc => hpre c (List.mem_cons_of_mem _ hc)) h
  | .waiting f p :: _, _, _, hpre, _ => by simpa [Call.isIdle] using hpre (.waiting f p) (by simp)
  | .writing f es :: _, _, _, hpre, _ => by simpa [Call.isIdle] using hpre (.writing f es) (by simp)

theorem behind_concat_idle : ∀ (calls : List (Call Id Address)) {q p : Nat} {flushes : List Nat},
    Behind q calls flushes → Behind q (calls ++ [.idle p]) flushes
  | [], _, _, [], _ => trivial
  | .idle _ :: calls, _, _, _, h => behind_concat_idle calls h
  | .waiting _ _ :: calls, _, _, _ :: _, h => ⟨h.1, h.2.1, behind_concat_idle calls h.2.2⟩

theorem front_concat_idle : ∀ (calls : List (Call Id Address)) {p : Nat}
    {flushes : List Nat}, Front w calls flushes → Front w (calls ++ [.idle p]) flushes
  | [], _, [], _ => trivial
  | .idle _ :: calls, _, _, h => front_concat_idle calls h
  | .waiting _ _ :: calls, _, _ :: _, h => ⟨h.1, h.2.1, behind_concat_idle calls h.2.2⟩
  | .writing _ _ :: calls, _, _ :: _, h => ⟨h.1, h.2.1, behind_concat_idle calls h.2.2⟩

theorem behind_not_writing : ∀ (calls : List (Call Id Address)) {q : Nat} {flushes : List Nat},
    Behind q calls flushes → ∀ c ∈ calls, c.isWriting = false
  | [], _, _, _, c, hc => by simp at hc
  | .idle _ :: calls, _, _, h, c, hc => by
      rcases List.mem_cons.mp hc with rfl | hc
      · rfl
      · exact behind_not_writing calls h c hc
  | .waiting _ _ :: calls, _, _ :: _, h, c, hc => by
      rcases List.mem_cons.mp hc with rfl | hc
      · rfl
      · exact behind_not_writing calls h.2.2 c hc

theorem behind_waiting : ∀ (calls : List (Call Id Address)) {q : Nat} {flushes : List Nat},
    Behind q calls flushes → ∀ f p, .waiting f p ∈ calls → p = q ∨ p ∈ flushes
  | [], _, _, _, _, _, hc => by simp at hc
  | .idle _ :: calls, _, _, h, f, p, hc => by
      rcases List.mem_cons.mp hc with hc | hc
      · simp at hc
      · exact behind_waiting calls h f p hc
  | .waiting f' p' :: calls, q, g :: flushes, h, f, p, hc => by
      obtain ⟨rfl, rfl, h⟩ := h
      rcases List.mem_cons.mp hc with hc | hc
      · simp only [Call.waiting.injEq] at hc
        exact .inl hc.2
      · rcases behind_waiting calls h f p hc with rfl | hp
        · exact .inr (List.mem_cons_self ..)
        · exact .inr (List.mem_cons_of_mem _ hp)

/-- **The call that writes is the first**, and it writes the entities of its flush. -/
theorem front_writing : ∀ (pre : List (Call Id Address))
    {post : List (Call Id Address)} {f : Nat} {entities : List (Entity Id Address)} {flushes : List Nat},
    Front w (pre ++ .writing f entities :: post) flushes →
      (∀ c ∈ pre, c.isIdle = true) ∧ entities = w.entitiesOf f ∧
        ∃ rest, flushes = f :: rest ∧ Behind f post rest
  | [], _, _, _, g :: flushes, h => by
      obtain ⟨rfl, h₁, h₂⟩ := h
      exact ⟨by simp, h₁, flushes, rfl, h₂⟩
  | .idle p :: pre, _, _, _, _, h => by
      obtain ⟨hpre, h₁, h₂⟩ := front_writing pre h
      refine ⟨fun c hc => ?_, h₁, h₂⟩
      rcases List.mem_cons.mp hc with rfl | hc
      · rfl
      · exact hpre c hc
  | .waiting f p :: pre, post, f', es, g :: flushes, h => by
      have := behind_not_writing _ h.2.2 (.writing f' es) (by simp)
      simp [Call.isWriting] at this
  | .writing f es :: pre, post, f', es', g :: flushes, h => by
      have := behind_not_writing _ h.2.2 (.writing f' es') (by simp)
      simp [Call.isWriting] at this

/-- **A waiting call that may go on is the first**, for every pending flush is not over. -/
theorem front_ready : ∀ (pre : List (Call Id Address))
    {post : List (Call Id Address)} {f p : Nat} {flushes : List Nat}, (∀ g ∈ flushes, w.eventOf g = false) → w.eventOf p = true →
    Front w (pre ++ .waiting f p :: post) flushes →
      (∀ c ∈ pre, c.isIdle = true) ∧ ∃ rest, flushes = f :: rest ∧ Behind f post rest
  | [], _, _, _, g :: flushes, _, _, h => by
      obtain ⟨rfl, -, h⟩ := h
      exact ⟨by simp, flushes, rfl, h⟩
  | .idle q :: pre, _, _, _, _, hquiet, hp, h => by
      obtain ⟨hpre, h⟩ := front_ready pre hquiet hp h
      refine ⟨fun c hc => ?_, h⟩
      rcases List.mem_cons.mp hc with rfl | hc
      · rfl
      · exact hpre c hc
  | .waiting f q :: pre, post, f', p, g :: flushes, hquiet, hp, h => by
      obtain ⟨rfl, -, h⟩ := h
      have hmem : p ∈ f :: flushes := by
        rcases behind_waiting _ h f' p (by simp) with rfl | hp
        · exact List.mem_cons_self ..
        · exact List.mem_cons_of_mem _ hp
      rw [hquiet p hmem] at hp
      simp at hp
  | .writing f es :: pre, post, f', p, g :: flushes, hquiet, hp, h => by
      obtain ⟨rfl, -, h⟩ := h
      have hmem : p ∈ f :: flushes := by
        rcases behind_waiting _ h f' p (by simp) with rfl | hp
        · exact List.mem_cons_self ..
        · exact List.mem_cons_of_mem _ hp
      rw [hquiet p hmem] at hp
      simp at hp

theorem front_of_behind {q : Nat} (hq : w.eventOf q = true) :
    ∀ (calls : List (Call Id Address)) {flushes : List Nat}, Behind q calls flushes → Front w calls flushes
  | [], [], _ => trivial
  | .idle _ :: calls, _, h => front_of_behind hq calls h
  | .waiting _ _ :: _, _ :: _, h => ⟨h.1, by rw [h.2.1]; exact hq, h.2.2⟩

theorem behind_append : ∀ (calls : List (Call Id Address)) {q : Nat} {flushes : List Nat} {f : Nat},
    Behind q calls flushes → Behind q (calls ++ [.waiting f (flushes.getLast?.getD q)]) (flushes ++ [f])
  | [], q, [], f, _ => ⟨rfl, rfl, trivial⟩
  | .idle _ :: calls, _, _, _, h => behind_append calls h
  | .waiting f' p :: calls, q, g :: flushes, f, h => by
      obtain ⟨rfl, rfl, h⟩ := h
      refine ⟨rfl, rfl, ?_⟩
      have hlast : (f' :: flushes).getLast?.getD p = flushes.getLast?.getD f' := by
        rw [List.getLast?_cons, Option.getD_some]
      rw [hlast]
      exact behind_append calls h

theorem front_append {f : Nat} : ∀ (calls : List (Call Id Address))
    {flushes : List Nat} {c : Call Id Address}, Front w calls flushes →
    (flushes = [] → c = .writing f (w.entitiesOf f)) → (∀ q, flushes.getLast? = some q → c = .waiting f q) →
      Front w (calls ++ [c]) (flushes ++ [f])
  | [], [], c, _, hnil, _ => by
      rw [hnil rfl]
      exact ⟨rfl, rfl, trivial⟩
  | .idle _ :: calls, _, _, h, hnil, hlast => front_append calls h hnil hlast
  | .waiting f' p :: calls, g :: flushes, c, h, _, hlast => by
      rw [hlast _ List.getLast?_cons]
      exact ⟨h.1, h.2.1, by rw [← h.1]; exact behind_append calls h.2.2⟩
  | .writing f' es :: calls, g :: flushes, c, h, _, hlast => by
      rw [hlast _ List.getLast?_cons]
      exact ⟨h.1, h.2.1, by rw [← h.1]; exact behind_append calls h.2.2⟩

theorem front_mono {w w' : Writer Id Address} (hevent : ∀ p, w.eventOf p = true → w'.eventOf p = true) :
    ∀ (calls : List (Call Id Address)) {flushes : List Nat},
      (∀ f ∈ flushes, w'.entitiesOf f = w.entitiesOf f) → Front w calls flushes → Front w' calls flushes
  | [], [], _, _ => trivial
  | .idle _ :: calls, _, hent, h => front_mono hevent calls hent h
  | .waiting _ p :: _, _ :: _, _, h => ⟨h.1, hevent p h.2.1, h.2.2⟩
  | .writing f _ :: _, _ :: _, hent, h => by
      obtain ⟨rfl, h₁, h₂⟩ := h
      exact ⟨rfl, by rw [hent f (List.mem_cons_self ..)]; exact h₁, h₂⟩

theorem front_writers : ∀ (calls : List (Call Id Address))
    {flushes : List Nat}, Front w calls flushes → (calls.filter Call.isWriting).length ≤ 1
  | [], _, _ => by simp
  | .idle _ :: calls, _, h => by
      have := front_writers calls h
      simpa [Call.isWriting] using this
  | .waiting f p :: calls, g :: flushes, h => by
      have hnone := behind_not_writing _ h.2.2
      rw [List.filter_cons_of_neg (by simp [Call.isWriting]),
        List.filter_eq_nil_iff.mpr fun c hc => by simp [hnone c hc]]
      simp
  | .writing f es :: calls, g :: flushes, h => by
      have hnone := behind_not_writing _ h.2.2
      rw [List.filter_cons_of_pos (by simp [Call.isWriting]),
        List.filter_eq_nil_iff.mpr fun c hc => by simp [hnone c hc]]
      simp

/-- The first flush has a call that writes it, or may. -/
theorem front_first {f : Nat} {flushes : List Nat} : ∀ calls : List (Call Id Address),
    Front w calls (f :: flushes) → ∃ i : Nat, calls[i]? = some (Call.writing f (w.entitiesOf f)) ∨
      ∃ p, calls[i]? = some (Call.waiting f p) ∧ w.eventOf p = true
  | .idle _ :: calls, h => by
      obtain ⟨i, hi⟩ := front_first calls h
      exact ⟨i + 1, hi⟩
  | .waiting _ p :: _, ⟨rfl, hp, _⟩ => ⟨0, .inr ⟨p, rfl, hp⟩⟩
  | .writing _ _ :: _, ⟨rfl, hentities, _⟩ => ⟨0, .inl (hentities ▸ rfl)⟩

/-- The calls around the `i`th one. -/
theorem calls_split {calls : List (Call Id Address)} {i : Nat} {c : Call Id Address}
    (h : calls[i]? = some c) : calls = calls.take i ++ c :: calls.drop (i + 1) := by
  obtain ⟨hlt, rfl⟩ := List.getElem?_eq_some_iff.mp h
  rw [List.cons_getElem_drop_succ, List.take_append_drop]

/-! ## 5. What each operation does to the flush objects -/

namespace Writer

theorem entitiesOf_register (w : Writer Id Address) {f : Nat} (h : f < w.heap.length) :
    w.register.entitiesOf f = w.entitiesOf f := by
  simp [register, entitiesOf, List.getElem?_append_left h]

theorem entitiesOf_register_new (w : Writer Id Address) : w.register.entitiesOf w.heap.length = w.buffer := by
  simp [register, entitiesOf]

theorem eventOf_register (w : Writer Id Address) (f : Nat) : w.register.eventOf f = w.eventOf f := by
  by_cases h : f < w.heap.length
  · simp [register, eventOf, List.getElem?_append_left h]
  · have hle : w.heap.length ≤ f := Nat.le_of_not_lt h
    simp only [register, eventOf, List.getElem?_append_right hle, List.getElem?_eq_none hle]
    cases f - w.heap.length <;> rfl

theorem entitiesOf_finish (w : Writer Id Address) (f g : Nat) : (w.finish f).entitiesOf g = w.entitiesOf g := by
  simp only [finish, entitiesOf, List.getElem?_modify]
  cases w.heap[g]? with
  | none => rfl
  | some x => by_cases h : f = g <;> simp [h]

theorem eventOf_finish (w : Writer Id Address) (f g : Nat) :
    (w.finish f).eventOf g = if f = g ∧ g < w.heap.length then true else w.eventOf g := by
  simp only [finish, eventOf, List.getElem?_modify]
  by_cases hlt : g < w.heap.length
  · rw [List.getElem?_eq_getElem hlt]
    by_cases h : f = g <;> simp [h, hlt]
  · rw [List.getElem?_eq_none (Nat.le_of_not_lt hlt)]
    simp [hlt]

theorem eventOf_requeue (w : Writer Id Address) (f g : Nat) : (w.requeue f).eventOf g = w.eventOf g := by
  unfold requeue
  split
  · rename_i next _ _
    simp only [eventOf, List.getElem?_modify]
    cases w.heap[g]? with
    | none => rfl
    | some x => by_cases h : next = g <;> simp [h]
  · rfl

theorem heap_length_requeue (w : Writer Id Address) (f : Nat) : (w.requeue f).heap.length = w.heap.length := by
  unfold requeue
  split <;> simp

theorem flushes_requeue (w : Writer Id Address) (f : Nat) : (w.requeue f).flushes = w.flushes := by
  unfold requeue
  split <;> rfl

theorem entitiesOf_requeue (w : Writer Id Address) {f next : Nat} {rest : List Nat}
    (h : w.flushes = f :: next :: rest) (hlt : next < w.heap.length) (g : Nat) : (w.requeue f).entitiesOf g =
      if next = g then w.entitiesOf f ++ w.entitiesOf next else w.entitiesOf g := by
  unfold requeue
  simp only [h, entitiesOf, List.getElem?_modify]
  by_cases hg : next = g
  · subst hg
    rw [List.getElem?_eq_getElem hlt]
    simp
  · cases w.heap[g]? <;> simp [hg]

/-- **A failed flush goes in front of what comes after it**, and no pending flush gets empty. -/
theorem requeue_spec (w : Writer Id Address) {f : Nat} {rest : List Nat}
    (h : w.flushes = f :: rest) (hnodup : (f :: rest).Nodup) (hbound : ∀ g ∈ f :: rest, g < w.heap.length) :
    rest.flatMap (w.requeue f).entitiesOf ++ (w.requeue f).buffer =
      w.entitiesOf f ++ rest.flatMap w.entitiesOf ++ w.buffer ∧
    ∀ g ∈ rest, w.entitiesOf g ≠ [] → (w.requeue f).entitiesOf g ≠ [] := by
  cases rest with
  | nil => simp [requeue, h]
  | cons next rest =>
    have hlt : next < w.heap.length := hbound next (by simp)
    have hent := w.entitiesOf_requeue h hlt
    have hbuf : (w.requeue f).buffer = w.buffer := by simp [requeue, h]
    have hfresh : next ∉ rest := by
      rw [List.nodup_cons, List.nodup_cons] at hnodup
      exact hnodup.2.1
    have hrest : rest.flatMap (w.requeue f).entitiesOf = rest.flatMap w.entitiesOf :=
      List.flatMap_congr fun g hg => by
        rw [hent, if_neg (fun he : next = g => hfresh (he ▸ hg))]
    refine ⟨?_, fun g _ hg => ?_⟩
    · rw [List.flatMap_cons, List.flatMap_cons, hrest, hbuf, hent, if_pos rfl]
      simp
    · rw [hent]
      split
      · rename_i he
        subst he
        simp [hg]
      · exact hg

end Writer

/-! ## 6. Summaries -/

section Observers

variable [DecidableEq Address]

def keysAt (place : RecordKind × Address) : Summary Id Address → List (Int × Id)
  | [] => []
  | (other, keys) :: rest => if other = place then keys else keysAt place rest

/-- The keys of the records of one kind and address among some entities, in order. -/
def recordsAt (place : RecordKind × Address) (entities : List (Entity Id Address)) :
    List (Int × Id) :=
  entities.filterMap fun e => e.record.bind fun r =>
    if (r.kind, r.address) = place then some (r.timestamp, e.id) else none

theorem keysAt_addKey (place : RecordKind × Address) (key : Int × Id)
    (place' : RecordKind × Address) : ∀ summary : Summary Id Address, keysAt place' (addKey summary place key) =
      if place = place' then keysAt place' summary ++ [key] else keysAt place' summary
  | [] => by by_cases h : place = place' <;> simp [addKey, keysAt, h]
  | (other, keys) :: rest => by
      have ih := keysAt_addKey place key place' rest
      by_cases h : other = place
      · subst h
        by_cases h' : other = place' <;> simp [addKey, keysAt, h']
      · by_cases h' : other = place'
        · subst h'
          simp [addKey, keysAt, h, Ne.symm h]
        · simp only [addKey, if_neg h, keysAt, if_neg h', ih]

/-- **A summary holds exactly the records of the flush**, per kind and address and in order. -/
theorem keysAt_summarize (place : RecordKind × Address) (entities : List (Entity Id Address)) :
    keysAt place (summarize entities) = recordsAt place entities := by
  have h : ∀ (entities : List (Entity Id Address)) (summary : Summary Id Address),
      keysAt place (entities.foldl (fun summary e =>
        match e.record with
        | some r => addKey summary (r.kind, r.address) (r.timestamp, e.id)
        | none => summary) summary) = keysAt place summary ++ recordsAt place entities := by
    intro entities
    induction entities with
    | nil => intro summary; simp [recordsAt]
    | cons e rest ih =>
      intro summary
      rw [List.foldl_cons, ih]
      cases hr : e.record with
      | none => simp [recordsAt, hr]
      | some r =>
        simp only [keysAt_addKey]
        by_cases hp : (r.kind, r.address) = place <;> simp [recordsAt, hr, hp]
  exact h entities []

/-- What a subscriber heard of one kind and address. -/
def Subscriber.heardAt (s : Subscriber Id Address) (place : RecordKind × Address) :
    List (Int × Id) :=
  s.heard.flatMap (keysAt place)

theorem heardAt_hear (s : Subscriber Id Address) (entities : List (Entity Id Address))
    (place : RecordKind × Address) (h : s.heardAt place = recordsAt place s.since) :
    (s.hear entities entities).heardAt place = recordsAt place (s.hear entities entities).since := by
  have happ : recordsAt place (s.since ++ entities) =
      recordsAt place s.since ++ recordsAt place entities := by simp [recordsAt]
  have hkeys := keysAt_summarize place entities
  unfold Subscriber.hear Subscriber.heardAt
  unfold Subscriber.heardAt at h
  simp only [happ, ← h]
  split
  · rename_i hnil
    rw [hnil] at hkeys
    simp [← hkeys, keysAt]
  · simp [hkeys]

/-! ## 7. The invariant of calm runs -/

variable [DecidableEq Id]

/-- The database after writing these entities one after another. -/
def upserts (entities : List (Entity Id Address)) : Id → Option (Entity Id Address) :=
  entities.foldl upsert fun _ => none

/-- The calls stand in the order of the deque, every pending flush holds entities and is not over,
    and what was added is what is stored, pending and buffered, in this order. -/
structure World.Inv (w : World Id Address) : Prop where
  front : Front w.writer w.calls w.writer.flushes
  bound : ∀ f ∈ w.writer.flushes, f < w.writer.heap.length
  nodup : w.writer.flushes.Nodup
  quiet : ∀ f ∈ w.writer.flushes, w.writer.eventOf f = false
  filled : ∀ f ∈ w.writer.flushes, w.writer.entitiesOf f ≠ []
  conserved : w.added = w.stored ++ w.writer.pending ++ w.writer.buffer
  database : w.database = upserts w.stored
  heard : ∀ s ∈ w.subscribers, ∀ place, s.heardAt place = recordsAt place s.since
  settled : w.writer.settled = true ↔ w.writer.buffer = [] ∧ w.writer.flushes = []

theorem inv_init : (({} : World Id Address)).Inv where
  front := trivial
  bound f hf := by simp at hf
  nodup := List.nodup_nil
  quiet f hf := by simp at hf
  filled f hf := by simp at hf
  conserved := rfl
  database := rfl
  heard s hs := by simp at hs
  settled := by simp

/-- Dropping a call that waits with nothing to write changes nothing else. -/
theorem inv_erase_idle {w : World Id Address} (hI : w.Inv) {i p : Nat}
    (hi : w.calls[i]? = some (.idle p)) : World.Inv { w with calls := w.calls.eraseIdx i } := by
  refine { hI with front := ?_ }
  have hfront := hI.front
  rw [calls_split hi] at hfront
  rw [List.eraseIdx_eq_take_drop_succ]
  exact front_idle _ hfront

theorem inv_register {w : World Id Address} (hI : w.Inv) (hbuf : w.writer.buffer ≠ []) {call : Call Id Address}
    (halone : w.writer.flushes = [] → call = .writing w.writer.heap.length w.writer.buffer)
    (hlast : ∀ q, w.writer.flushes.getLast? = some q → call = .waiting w.writer.heap.length q) :
    World.Inv { w with writer := w.writer.register, calls := w.calls ++ [call] } := by
  have hent : ∀ f ∈ w.writer.flushes, w.writer.register.entitiesOf f = w.writer.entitiesOf f :=
    fun f hf => w.writer.entitiesOf_register (hI.bound f hf)
  have hfresh : w.writer.heap.length ∉ w.writer.flushes := fun h =>
    Nat.lt_irrefl _ (hI.bound _ h)
  have hmem : ∀ f ∈ w.writer.register.flushes, f ∈ w.writer.flushes ∨ f = w.writer.heap.length := by
    intro f hf
    simpa [Writer.register] using hf
  exact
    { front := by
        have hfront := front_mono (fun p hp => (w.writer.eventOf_register p).trans hp) _ hent hI.front
        refine front_append _ hfront (fun h => ?_) hlast
        rw [w.writer.entitiesOf_register_new]
        exact halone h
      bound := fun f hf => by
        simp only [Writer.register, List.length_append, List.length_singleton]
        rcases hmem f hf with hf | rfl
        · exact Nat.lt_succ_of_lt (hI.bound f hf)
        · exact Nat.lt_succ_self _
      nodup := by
        simp only [Writer.register]
        rw [List.nodup_append]
        refine ⟨hI.nodup, by simp, fun a ha b hb hab => ?_⟩
        rw [List.mem_singleton] at hb
        exact hfresh (hb ▸ hab ▸ ha)
      quiet := fun f hf => by
        rw [Writer.eventOf_register]
        rcases hmem f hf with hf | rfl
        · exact hI.quiet f hf
        · simp [Writer.eventOf]
      filled := fun f hf => by
        rcases hmem f hf with hf | rfl
        · rw [hent f hf]
          exact hI.filled f hf
        · rw [w.writer.entitiesOf_register_new]
          exact hbuf
      conserved := by
        have hpending : w.writer.register.pending = w.writer.pending ++ w.writer.buffer := by
          have hflat : w.writer.flushes.flatMap w.writer.register.entitiesOf = w.writer.pending :=
            List.flatMap_congr hent
          have hnew := w.writer.entitiesOf_register_new
          unfold Writer.pending
          rw [show w.writer.register.flushes = w.writer.flushes ++ [w.writer.heap.length] from rfl,
            List.flatMap_append, hflat, List.flatMap_singleton, hnew]
          rfl
        simp only [hpending, hI.conserved]
        simp [Writer.register]
      database := hI.database
      heard := hI.heard
      settled := by
        have hset : w.writer.settled = false := by
          rw [← Bool.not_eq_true, hI.settled]
          exact fun h => hbuf h.1
        simp [Writer.register, hset] }

/-- **A flush call keeps the invariant.** -/
theorem inv_startFlush {w : World Id Address} (hI : w.Inv) : (startFlush w).Inv := by
  unfold startFlush
  by_cases hbuf : w.writer.buffer = []
  · simp only [hbuf, if_true]
    cases hlast : w.writer.flushes.getLast? with
    | none => exact hI
    | some p =>
      have hp : w.writer.eventOf p = false := hI.quiet p (List.mem_of_getLast? hlast)
      simp only [hp]
      exact { hI with front := front_concat_idle _ hI.front }
  · simp only [if_neg hbuf]
    refine inv_register hI hbuf (fun hnil => ?_) (fun q hq => ?_)
    · simp [hnil]
    · have hp : w.writer.eventOf q = false := hI.quiet q (List.mem_of_getLast? hq)
      simp [hq, hp]

/-- **The end of the first flush** hands the front to the call behind it. -/
theorem inv_finish {w : World Id Address} (hI : w.Inv) {i f : Nat}
    {entities : List (Entity Id Address)} (hi : w.calls[i]? = some (.writing f entities))
    {writer : Writer Id Address} {stored : List (Entity Id Address)}
    {database : Id → Option (Entity Id Address)} {subscribers : List (Subscriber Id Address)}
    (hheap : writer.heap.length = w.writer.heap.length) (hflushes : writer.flushes = w.writer.flushes)
    (hevent : ∀ g, writer.eventOf g = w.writer.eventOf g)
    (hfilled : ∀ g ∈ w.writer.flushes.tail, writer.entitiesOf g ≠ []) (hconserved : w.added =
      stored ++ w.writer.flushes.tail.flatMap writer.entitiesOf ++ writer.buffer)
    (hdatabase : database = upserts stored)
    (hheard : ∀ s ∈ subscribers, ∀ place, s.heardAt place = recordsAt place s.since)
    (hsettled : writer.settled = w.writer.settled) : World.Inv { w with
        writer := writer.finish f, calls := w.calls.eraseIdx i, database := database, subscribers := subscribers, stored := stored } := by
  have hfront := hI.front
  rw [calls_split hi] at hfront
  obtain ⟨hpre, -, rest, hrest, hbehind⟩ := front_writing _ hfront
  have htail : (writer.finish f).flushes = rest := by
    simp [Writer.finish, hflushes, hrest]
  have hmem : ∀ g ∈ rest, g ∈ w.writer.flushes := fun g hg => by
    rw [hrest]
    exact List.mem_cons_of_mem _ hg
  have hf : f < writer.heap.length := by
    rw [hheap]
    exact hI.bound f (by rw [hrest]; exact List.mem_cons_self ..)
  have hnodup := hI.nodup
  rw [hrest, List.nodup_cons] at hnodup
  rw [hrest, List.tail_cons] at hfilled hconserved
  exact
    { front := by
        rw [htail, List.eraseIdx_eq_take_drop_succ]
        refine front_append_idle _ hpre (front_of_behind ?_ _ hbehind)
        simp [Writer.eventOf_finish, hf]
      bound := fun g hg => by
        rw [htail] at hg
        simp only [Writer.finish, List.length_modify, hheap]
        exact hI.bound g (hmem g hg)
      nodup := by
        rw [htail]
        exact hnodup.2
      quiet := fun g hg => by
        rw [htail] at hg
        have hne : f ≠ g := fun h => hnodup.1 (h ▸ hg)
        rw [Writer.eventOf_finish, if_neg (fun h => hne h.1), hevent]
        exact hI.quiet g (hmem g hg)
      filled := fun g hg => by
        rw [htail] at hg
        rw [Writer.entitiesOf_finish]
        exact hfilled g hg
      conserved := by
        have hpending : (writer.finish f).pending = rest.flatMap writer.entitiesOf := by
          unfold Writer.pending
          rw [htail]
          exact List.flatMap_congr fun g _ => Writer.entitiesOf_finish writer f g
        rw [hpending]
        exact hconserved
      database := hdatabase
      heard := hheard
      settled := by
        have hset : writer.settled = false := by
          rw [hsettled, ← Bool.not_eq_true, hI.settled, hrest]
          simp
        simp only [Writer.finish, hset]
        split <;> simp_all }

/-- **Every calm transition keeps the invariant.** -/
theorem inv_step {w w' : World Id Address} {a : Action Id Address} (hI : w.Inv)
    (hcalm : calm w a = true) (h : step w a = some w') : w'.Inv := by
  cases a with
  | add e =>
    simp only [step, Option.some.injEq] at h
    subst h
    have hevent : ∀ p, w.writer.eventOf p = true → (w.writer.add e).eventOf p = true :=
      fun _ hp => hp
    have hfront := front_mono hevent w.calls (fun _ _ => rfl) hI.front
    have hpending : (w.writer.add e).pending = w.writer.pending := rfl
    exact
      { front := hfront
        bound := hI.bound
        nodup := hI.nodup
        quiet := hI.quiet
        filled := hI.filled
        conserved := by
          rw [hpending, hI.conserved]
          simp [Writer.add]
        database := hI.database
        heard := hI.heard
        settled := by simp [Writer.add] }
  | flush =>
    simp only [step, Option.some.injEq] at h
    subst h
    exact inv_startFlush hI
  | resume i =>
    simp only [step] at h
    split at h
    · rename_i p hi
      split at h
      · simp only [Option.some.injEq] at h
        subst h
        exact inv_erase_idle hI hi
      · simp at h
    · rename_i f p hi
      split at h
      · rename_i hp
        simp only [Option.some.injEq] at h
        subst h
        refine { hI with front := ?_ }
        have hfront := hI.front
        rw [calls_split hi] at hfront
        obtain ⟨hpre, rest, hrest, hbehind⟩ := front_ready _ hI.quiet hp hfront
        obtain ⟨hlt, -⟩ := List.getElem?_eq_some_iff.mp hi
        rw [List.set_eq_take_append_cons_drop, if_pos hlt, hrest]
        exact front_append_idle _ hpre ⟨rfl, rfl, hbehind⟩
      · simp at h
    · simp at h
  | succeed i =>
    simp only [step] at h
    split at h
    · rename_i f written hi
      simp only [Option.some.injEq] at h
      subst h
      have hfront := hI.front
      rw [calls_split hi] at hfront
      obtain ⟨-, hwritten, rest, hrest, -⟩ := front_writing _ hfront
      refine inv_finish hI hi rfl rfl (fun _ => rfl) (fun g hg => ?_) ?_ ?_ (fun s hs place => ?_) rfl
      · exact hI.filled g (List.mem_of_mem_tail hg)
      · rw [hI.conserved, Writer.pending, hrest, hwritten]
        simp
      · rw [hI.database, upserts, upserts, List.foldl_append]
      · obtain ⟨t, ht, rfl⟩ := List.mem_map.mp hs
        rw [hwritten]
        exact heardAt_hear t _ place (hI.heard t ht place)
    · simp at h
  | fail i =>
    simp only [step] at h
    split at h
    · rename_i f written hi
      simp only [Option.some.injEq] at h
      subst h
      have hfront := hI.front
      rw [calls_split hi] at hfront
      obtain ⟨-, -, rest, hrest, -⟩ := front_writing _ hfront
      have hset : (w.writer.requeue f).settled = w.writer.settled := by
        unfold Writer.requeue
        split <;> rfl
      have hbound := hI.bound
      have hnodup := hI.nodup
      have hfilled := hI.filled
      rw [hrest] at hbound hnodup hfilled
      obtain ⟨hent, hkeep⟩ := w.writer.requeue_spec hrest hnodup hbound
      refine inv_finish hI hi (w.writer.heap_length_requeue f) (w.writer.flushes_requeue f)
        (w.writer.eventOf_requeue f) (fun g hg => ?_) ?_ hI.database hI.heard hset
      · rw [hrest, List.tail_cons] at hg
        exact hkeep g hg (hfilled g (List.mem_cons_of_mem _ hg))
      · rw [hI.conserved, hrest, List.tail_cons, List.append_assoc, List.append_assoc, hent,
          Writer.pending, hrest]
        simp
    · simp at h
  | cancel i =>
    simp only [step] at h
    split at h
    · rename_i p hi
      simp only [Option.some.injEq] at h
      subst h
      exact inv_erase_idle hI hi
    · rename_i f p hi
      simp [calm, hi, Call.isIdle] at hcalm
    · rename_i f es hi
      simp [calm, hi, Call.isIdle] at hcalm
    · simp at h
  | subscribe name =>
    simp only [step, Option.some.injEq] at h
    subst h
    refine { hI with heard := fun s hs place => ?_ }
    rcases List.mem_append.mp hs with hs | hs
    · exact hI.heard s hs place
    · rw [List.mem_singleton.mp hs]
      rfl
  | unsubscribe name =>
    simp only [step, Option.some.injEq] at h
    subst h
    exact { hI with heard := fun s hs => hI.heard s (List.mem_of_mem_filter hs) }

/-- **The writer keeps every entity, along every calm run**: what was added is what is stored,
    pending and buffered, in the order it was added; the database is what the stored entities
    upsert; at most one call writes; without calls no flush is pending; a subscriber has heard
    exactly the records stored while it listened; and the writer is settled exactly when nothing is
    buffered or pending. -/
theorem run_keeps_everything (actions : List (Action Id Address)) (w : World Id Address)
    (hcalm : Along step (fun w a => calm w a = true) {} actions) (hrun : run step {} actions = some w) :
    w.added = w.stored ++ w.writer.pending ++ w.writer.buffer ∧
    w.database = upserts w.stored ∧
    (w.calls.filter Call.isWriting).length ≤ 1 ∧
    (w.calls = [] → w.writer.flushes = []) ∧
    (∀ s ∈ w.subscribers, ∀ place, s.heardAt place = recordsAt place s.since) ∧
    (w.writer.settled = true ↔ w.writer.buffer = [] ∧ w.writer.flushes = []) ∧
    (w.writer.settled = w.writer.empty) := by
  have hI : w.Inv := run_inv (fun s a s' hI hok h => inv_step hI hok h) actions {} w inv_init hcalm
    hrun
  refine ⟨hI.conserved, hI.database, front_writers _ hI.front, fun hnil => ?_, hI.heard, hI.settled,
    ?_⟩
  · have hfront := hI.front
    rw [hnil] at hfront
    cases hf : w.writer.flushes with
    | nil => rfl
    | cons g flushes => rw [hf] at hfront; exact hfront.elim
  · rw [Bool.eq_iff_iff, hI.settled, Writer.empty, Bool.and_eq_true, List.isEmpty_iff,
      List.all_eq_true]
    refine and_congr_right fun _ => ⟨fun hnil => by simp [hnil], fun hall => ?_⟩
    cases hf : w.writer.flushes with
    | nil => rfl
    | cons g flushes =>
      have hg : g ∈ w.writer.flushes := by simp [hf]
      exact absurd (List.isEmpty_iff.mp (hall g hg)) (hI.filled g hg)

/-! ## 8. No entity is stuck -/

/-- The event loop or the database lets a call go on. -/
def Action.serves : Action Id Address → Bool
  | resume _ | succeed _ => true
  | _ => false

/-- What a write leaves of the queue. -/
structure Served (w w' : World Id Address) (flushes : List Nat) : Prop where
  inv : w'.Inv
  flushes : w'.writer.flushes = flushes
  buffer : w'.writer.buffer = w.writer.buffer
  added : w'.added = w.added

theorem served_of_writing {w : World Id Address} (hI : w.Inv) {i f : Nat} {flushes : List Nat}
    (hflushes : w.writer.flushes = f :: flushes) (hi : w.calls[i]? = some (.writing f (w.writer.entitiesOf f))) :
    ∃ w', run step w [.succeed i] = some w' ∧ Served w w' flushes := by
  obtain ⟨w', hstep⟩ : ∃ w', step w (.succeed i) = some w' := by simp [step, hi]
  have hnext := hstep
  simp only [step, hi, Option.some.injEq] at hnext
  refine ⟨w', by rw [run, hstep]; rfl, inv_step hI rfl hstep, ?_, ?_, ?_⟩
  · rw [← hnext]
    exact congrArg List.tail hflushes
  · rw [← hnext]
    rfl
  · rw [← hnext]

theorem exists_served {w : World Id Address} (hI : w.Inv) {f : Nat} {flushes : List Nat}
    (hflushes : w.writer.flushes = f :: flushes) :
    ∃ actions w', run step w actions = some w' ∧ (∀ a ∈ actions, a.serves = true) ∧ Served w w' flushes := by
  obtain ⟨i, hi | ⟨p, hi, hp⟩⟩ := front_first w.calls (hflushes ▸ hI.front)
  · obtain ⟨w', hrun, hserved⟩ := served_of_writing hI hflushes hi
    exact ⟨_, w', hrun, by simp [Action.serves], hserved⟩
  · have hstep : step w (.resume i) = some { w with calls := w.calls.set i (.writing f (w.writer.entitiesOf f)) } := by
      simp [step, hi, hp]
    have hlt := (List.getElem?_eq_some_iff.mp hi).1
    obtain ⟨w', hrun, hserved⟩ := served_of_writing (inv_step hI rfl hstep) hflushes (List.getElem?_set_self hlt)
    exact ⟨[.resume i, .succeed i], w', by rw [run, hstep]; exact hrun, by simp [Action.serves],
      ⟨hserved.inv, hserved.flushes, hserved.buffer, hserved.added⟩⟩

theorem exists_drained : ∀ {flushes : List Nat} {w : World Id Address}, w.Inv → w.writer.flushes = flushes →
    ∃ actions w', run step w actions = some w' ∧ (∀ a ∈ actions, a.serves = true) ∧ Served w w' []
  | [], w, hI, hflushes => ⟨[], w, rfl, by simp, hI, hflushes, rfl, rfl⟩
  | f :: flushes, w, hI, hflushes => by
      obtain ⟨first, next, hrun, hserves, hserved⟩ := exists_served hI hflushes
      obtain ⟨rest, w', hrest, hserve, hdrained⟩ := exists_drained hserved.inv hserved.flushes
      refine ⟨first ++ rest, w', ?_, List.forall_mem_append.mpr ⟨hserves, hserve⟩, hdrained.inv, hdrained.flushes,
        hdrained.buffer.trans hserved.buffer, hdrained.added.trans hserved.added⟩
      rw [run_append, hrun]
      exact hrest

omit [DecidableEq Id] [DecidableEq Address] in
theorem startFlush_buffer (w : World Id Address) :
    (startFlush w).writer.buffer = [] ∧ (startFlush w).added = w.added := by
  unfold startFlush
  by_cases hbuffer : w.writer.buffer = []
  · rw [if_pos hbuffer]
    split
    · split <;> exact ⟨hbuffer, rfl⟩
    · exact ⟨hbuffer, rfl⟩
  · rw [if_neg hbuffer]
    exact ⟨rfl, rfl⟩

/-- **No calm run leaves the writer stuck**: after one more flush call, all that was added can be stored, in its
    order, with calls that go on and writes that succeed alone, and the writer is settled then. -/
theorem calm_run_drains (actions : List (Action Id Address)) (w : World Id Address)
    (hcalm : Along step (fun w a => calm w a = true) {} actions) (hrun : run step {} actions = some w) :
    ∃ more w', run step w (.flush :: more) = some w' ∧ (∀ a ∈ more, a.serves = true) ∧
      w'.stored = w.added ∧ w'.writer.settled = true := by
  have hI : w.Inv := run_inv (fun s a s' hI hok h => inv_step hI hok h) actions {} w inv_init hcalm hrun
  obtain ⟨hbuffer, hadded⟩ := startFlush_buffer w
  obtain ⟨more, w', hmore, hserves, hdrained⟩ := exists_drained (inv_startFlush hI) rfl
  have hnone : w'.writer.buffer = [] := hdrained.buffer.trans hbuffer
  refine ⟨more, w', hmore, hserves, ?_, hdrained.inv.settled.mpr ⟨hnone, hdrained.flushes⟩⟩
  have hconserved := hdrained.inv.conserved
  rw [hnone, Writer.pending, hdrained.flushes, hdrained.added, hadded] at hconserved
  simpa using hconserved.symm

end Observers

def someMessage : Entity Nat String :=
  { id := 1, record := some { kind := .message, address := "@pump", timestamp := 5 } }

def someSetting : Entity Nat String := { id := 2, record := none }

/-- Two flushes and a call with nothing to write, which is cancelled; the first write fails and its
    batch goes out with the second. -/
def retryRun : List (Action Nat String) :=
  [.subscribe 0, .add someMessage, .flush, .add someSetting, .flush, .flush, .cancel 2, .fail 0,
    .resume 0, .succeed 0]

theorem run_keeps_everything_retry : ∃ w, run step {} retryRun = some w ∧
    w.stored = [someMessage, someSetting] ∧
    w.added = w.stored ++ w.writer.pending ++ w.writer.buffer ∧
    w.database = upserts w.stored ∧
    (w.calls.filter Call.isWriting).length ≤ 1 ∧
    (w.calls = [] → w.writer.flushes = []) ∧
    (∀ s ∈ w.subscribers, ∀ place, s.heardAt place = recordsAt place s.since) ∧
    (w.writer.settled = true ↔ w.writer.buffer = [] ∧ w.writer.flushes = []) ∧
    (w.writer.settled = w.writer.empty) :=
  ⟨_, rfl, rfl, run_keeps_everything retryRun _ (by decide) rfl⟩

/-- After the first write has failed, with the second flush still waiting. -/
theorem calm_run_drains_retry : ∃ w more w', run step {} (retryRun.take 8) = some w ∧
    run step w (.flush :: more) = some w' ∧ (∀ a ∈ more, a.serves = true) ∧ w'.stored = w.added ∧
    w'.writer.settled = true :=
  ⟨_, (calm_run_drains (retryRun.take 8) _ (by decide) rfl).imp fun _ ⟨w', h⟩ => ⟨w', rfl, h⟩⟩

/-- A second flush is cancelled while it waits for the first. -/
def cancelledRun : List (Action Nat String) :=
  [.add someMessage, .flush, .add someSetting, .flush, .cancel 1, .succeed 0]

/-- The cancelled call pops the running flush and not its own, and once that write is over its
    entity is neither stored nor buffered nor pending: the writer takes itself for settled. -/
theorem cancelled_flush_loses : ∃ w, run step {} cancelledRun = some w ∧
    someSetting ∈ w.added ∧ someSetting ∉ w.stored ∧ w.database someSetting.id = none ∧
    w.writer.buffer = [] ∧ w.writer.flushes = [] ∧ w.calls = [] ∧ w.writer.settled = true :=
  ⟨_, rfl, by decide, by decide, rfl, rfl, rfl, rfl, rfl⟩

end Ceres.Database
