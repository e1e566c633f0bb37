/-
  File:      Ceres/Webrtc/Queue.lean
  Subject:   THE QUEUE OF A MEDIA SOCKET (`rust/ceres-webrtc/src/socket.rs`).

  While the socket's send buffer is full, its datagrams wait in a queue. A datagram is sent at once only
  past an empty queue, a queue of `QUEUE_BYTES` takes no more, and one whose oldest datagram has waited
  past `QUEUE_LIMIT` is dropped as a whole.

  * `Queue.send`, `Queue.flush`, `Queue.fallBehind` -- the three calls, with what `try_send` answers;
  * `step` -- one call, and what became of the datagrams;
  * `Sound` -- what was handed to the socket and what waits are, in this order, part of what was given;
  * **`run_accounted`** -- nothing overtakes or repeats, nothing is missing without a reason, and `bytes`
    counts what waits.
-/
import Mathlib.Tactic

namespace Ceres.Webrtc

/-! ## 1. The queue -/

/-- The most bytes a socket holds back. -/
def QUEUE_BYTES : Nat := 4 * 1024 * 1024

/-- The longest a datagram waits, in nanoseconds. -/
def QUEUE_LIMIT : Nat := 10 ^ 9

variable {α : Type}

structure Datagram (α : Type) where
  /-- Which `send` brought it, so that two alike stay two. -/
  number : Nat
  source : α
  destination : α
  contents : List UInt8
  queued : Nat
deriving DecidableEq

def Datagram.size (datagram : Datagram α) : Nat := datagram.contents.length

structure Behind where
  skips : Nat
  last : Nat
deriving DecidableEq

structure Queue (α : Type) where
  datagrams : List (Datagram α)
  bytes : Nat
  behind : Option Behind
deriving DecidableEq

namespace Queue

def default : Queue α := ⟨[], 0, none⟩

/-- Ends a stretch behind the network once the queue has kept up for `QUEUE_LIMIT`. -/
def keepUp (queue : Queue α) (now : Nat) : Queue α :=
  match queue.behind with
  | some behind => if QUEUE_LIMIT < now - behind.last then { queue with behind := none } else queue
  | none => queue

/-- What one call returned, and what it handed to the socket. -/
structure Answer (α : Type) where
  returned : Bool
  handed : List (Datagram α)
  queue : Queue α

/-- `accepts` is what `try_send` answers, if it is asked. -/
def send (queue : Queue α) (datagram : Datagram α) (now : Nat) (accepts : Bool) : Answer α :=
  if queue.datagrams.isEmpty && accepts then ⟨true, [datagram], queue.keepUp now⟩
  else if QUEUE_BYTES < queue.bytes + datagram.size then ⟨false, [], queue⟩
  else
    ⟨true, [], { queue with
      datagrams := queue.datagrams ++ [datagram]
      bytes := queue.bytes + datagram.size }⟩

/-- The loop of `flush`: what is handed, what stays, and its bytes. `accepts n` is the answer to the
    `n`-th `try_send`. -/
def drain (accepts : Nat → Bool) : Nat → List (Datagram α) → Nat → List (Datagram α) × List (Datagram α) × Nat
  | _, [], bytes => ([], [], bytes)
  | n, datagram :: datagrams, bytes =>
    if accepts n then
      let rest := drain accepts (n + 1) datagrams (bytes - datagram.size)
      (datagram :: rest.1, rest.2)
    else ([], datagram :: datagrams, bytes)

def flush (queue : Queue α) (now : Nat) (accepts : Nat → Bool) : Answer α :=
  let drained := drain accepts 0 queue.datagrams queue.bytes
  let left : Queue α := ⟨drained.2.1, drained.2.2, queue.behind⟩
  ⟨true, drained.1, if left.datagrams.isEmpty then left.keepUp now else left⟩

/-- Drops every queued datagram once the oldest has waited past `QUEUE_LIMIT`. -/
def fallBehind (queue : Queue α) (now : Nat) : Answer α :=
  match queue.datagrams with
  | [] => ⟨false, [], queue.keepUp now⟩
  | oldest :: _ =>
    if now - oldest.queued ≤ QUEUE_LIMIT then ⟨false, [], queue⟩
    else ⟨true, [], ⟨[], 0, some ⟨(queue.behind.map Behind.skips).getD 0 + 1, now⟩⟩⟩

end Queue

/-! ## 2. Any sequence of calls -/

inductive Call (α : Type) where
  | send (source destination : α) (contents : List UInt8) (now : Nat) (accepts : Bool)
  | flush (now : Nat) (accepts : Nat → Bool)
  | fallBehind (now : Nat)

/-- The queue, and what became of the datagrams: those given to `send`, those handed to the socket, those
    whose `send` returned `false`, and those queued when `fallBehind` returned `true`. -/
structure World (α : Type) where
  queue : Queue α
  given : List (Datagram α)
  handed : List (Datagram α)
  refused : List (Datagram α)
  dropped : List (Datagram α)

def World.initial : World α := ⟨.default, [], [], [], []⟩

def step (world : World α) : Call α → World α
  | .send source destination contents now accepts =>
    let datagram : Datagram α := ⟨world.given.length, source, destination, contents, now⟩
    let answer := world.queue.send datagram now accepts
    { world with
      queue := answer.queue
      given := world.given ++ [datagram]
      handed := world.handed ++ answer.handed
      refused := if answer.returned then world.refused else world.refused ++ [datagram] }
  | .flush now accepts =>
    let answer := world.queue.flush now accepts
    { world with
      queue := answer.queue
      handed := world.handed ++ answer.handed }
  | .fallBehind now =>
    let answer := world.queue.fallBehind now
    { world with
      queue := answer.queue
      handed := world.handed ++ answer.handed
      dropped := if answer.returned then world.dropped ++ world.queue.datagrams else world.dropped }

def run (calls : List (Call α)) : World α := calls.foldl step .initial

/-! ## 3. What every call keeps -/

/-- The bytes of the datagrams together. -/
def total (datagrams : List (Datagram α)) : Nat := (datagrams.map Datagram.size).sum

structure Sound (world : World α) : Prop where
  numbered : world.given.map Datagram.number = List.range world.given.length
  /-- What waits comes after all that was handed. -/
  ordered : (world.handed ++ world.queue.datagrams).Sublist world.given
  accounted : ∀ datagram ∈ world.given, datagram ∈ world.handed ∨ datagram ∈ world.refused ∨
    datagram ∈ world.dropped ∨ datagram ∈ world.queue.datagrams
  bytes : world.queue.bytes = total world.queue.datagrams
  bounded : world.queue.bytes ≤ QUEUE_BYTES

theorem total_snoc (datagrams : List (Datagram α)) (datagram : Datagram α) :
    total (datagrams ++ [datagram]) = total datagrams + datagram.size := by
  unfold total
  rw [List.map_append, List.sum_append]
  rfl

@[simp] theorem Queue.keepUp_datagrams (queue : Queue α) (now : Nat) :
    (queue.keepUp now).datagrams = queue.datagrams := by
  unfold Queue.keepUp
  split
  · split <;> rfl
  · rfl

@[simp] theorem Queue.keepUp_bytes (queue : Queue α) (now : Nat) : (queue.keepUp now).bytes = queue.bytes := by
  unfold Queue.keepUp
  split
  · split <;> rfl
  · rfl

/-- What `send` does with a datagram: it is handed past an empty queue, refused, or queued. -/
theorem Queue.send_cases (queue : Queue α) (datagram : Datagram α) (now : Nat) (accepts : Bool) :
    (queue.datagrams = [] ∧ queue.send datagram now accepts = ⟨true, [datagram], queue.keepUp now⟩) ∨
      queue.send datagram now accepts = ⟨false, [], queue⟩ ∨
      (queue.bytes + datagram.size ≤ QUEUE_BYTES ∧ queue.send datagram now accepts =
        ⟨true, [], ⟨queue.datagrams ++ [datagram], queue.bytes + datagram.size, queue.behind⟩⟩) := by
  unfold Queue.send
  by_cases hdirect : (queue.datagrams.isEmpty && accepts) = true
  · rw [if_pos hdirect]
    exact .inl ⟨List.isEmpty_iff.mp ((Bool.and_eq_true _ _).mp hdirect).1, rfl⟩
  · rw [if_neg hdirect]
    by_cases hfull : QUEUE_BYTES < queue.bytes + datagram.size
    · rw [if_pos hfull]
      exact .inr (.inl rfl)
    · rw [if_neg hfull]
      exact .inr (.inr ⟨Nat.le_of_not_lt hfull, rfl⟩)

/-- The loop cuts the queue in two, and counts down what it hands. -/
theorem Queue.drain_split (accepts : Nat → Bool) : ∀ (n : Nat) (datagrams : List (Datagram α)),
    (drain accepts n datagrams (total datagrams)).1 ++ (drain accepts n datagrams (total datagrams)).2.1 =
        datagrams ∧ (drain accepts n datagrams (total datagrams)).2.2 =
        total (drain accepts n datagrams (total datagrams)).2.1
  | _, [] => ⟨rfl, rfl⟩
  | n, datagram :: datagrams => by
      have hless : total (datagram :: datagrams) - datagram.size = total datagrams :=
        Nat.add_sub_cancel_left datagram.size (total datagrams)
      unfold drain
      by_cases haccepts : accepts n = true
      · rw [if_pos haccepts, hless]
        obtain ⟨hsplit, hbytes⟩ := drain_split accepts (n + 1) datagrams
        exact ⟨congrArg (datagram :: ·) hsplit, hbytes⟩
      · rw [if_neg haccepts]
        exact ⟨rfl, rfl⟩

theorem Queue.flush_spec {queue : Queue α} (hbytes : queue.bytes = total queue.datagrams) (now : Nat)
    (accepts : Nat → Bool) :
    (queue.flush now accepts).handed ++ (queue.flush now accepts).queue.datagrams = queue.datagrams ∧
      (queue.flush now accepts).queue.bytes = total (queue.flush now accepts).queue.datagrams := by
  obtain ⟨hsplit, hleft⟩ := drain_split accepts 0 queue.datagrams
  rw [← hbytes] at hsplit hleft
  unfold Queue.flush
  dsimp only
  split
  · rw [keepUp_datagrams, keepUp_bytes]
    exact ⟨hsplit, hleft⟩
  · exact ⟨hsplit, hleft⟩

/-- `fallBehind` keeps the queue as it is, or drops all of it. -/
theorem Queue.fallBehind_cases (queue : Queue α) (now : Nat) : (queue.fallBehind now).handed = [] ∧
      (((queue.fallBehind now).returned = false ∧ (queue.fallBehind now).queue.datagrams = queue.datagrams ∧
          (queue.fallBehind now).queue.bytes = queue.bytes) ∨
        ((queue.fallBehind now).returned = true ∧ (queue.fallBehind now).queue.datagrams = [] ∧
          (queue.fallBehind now).queue.bytes = 0)) := by
  unfold Queue.fallBehind
  split
  · exact ⟨rfl, .inl ⟨rfl, keepUp_datagrams queue now, keepUp_bytes queue now⟩⟩
  · split
    · exact ⟨rfl, .inl ⟨rfl, rfl, rfl⟩⟩
    · exact ⟨rfl, .inr ⟨rfl, rfl, rfl⟩⟩

theorem numbered_snoc {given : List (Datagram α)} (h : given.map Datagram.number = List.range given.length)
    {datagram : Datagram α} (hnumber : datagram.number = given.length) :
    (given ++ [datagram]).map Datagram.number = List.range (given ++ [datagram]).length := by
  rw [List.map_append, h, List.length_append, List.length_singleton, List.range_succ, List.map_singleton,
    hnumber]

theorem accounted_snoc {given handed refused dropped queued handed' refused' queued' : List (Datagram α)}
    {datagram : Datagram α}
    (h : ∀ datagram ∈ given, datagram ∈ handed ∨ datagram ∈ refused ∨ datagram ∈ dropped ∨ datagram ∈ queued)
    (hhanded : handed ⊆ handed') (hrefused : refused ⊆ refused') (hqueued : queued ⊆ queued')
    (hnew : datagram ∈ handed' ∨ datagram ∈ refused' ∨ datagram ∈ queued') :
    ∀ other ∈ given ++ [datagram], other ∈ handed' ∨ other ∈ refused' ∨ other ∈ dropped ∨ other ∈ queued' := by
  intro other hother
  obtain hother | hother := List.mem_append.mp hother
  · exact (h other hother).imp (hhanded ·) (Or.imp (hrefused ·) (Or.imp_right (hqueued ·)))
  · obtain rfl := List.mem_singleton.mp hother
    exact hnew.imp_right (Or.imp_right Or.inr)

variable {world : World α}

theorem Sound.send (h : Sound world) (source destination : α) (contents : List UInt8) (now : Nat)
    (accepts : Bool) : Sound (step world (.send source destination contents now accepts)) := by
  have hnumber : (⟨world.given.length, source, destination, contents, now⟩ : Datagram α).number =
      world.given.length := rfl
  unfold step
  dsimp only
  generalize (⟨world.given.length, source, destination, contents, now⟩ : Datagram α) = datagram at hnumber ⊢
  have hnumbered := numbered_snoc h.numbered hnumber
  obtain ⟨hempty, hsent⟩ | hsent | ⟨hfits, hsent⟩ := world.queue.send_cases datagram now accepts
  · rw [hsent]
    have hordered := h.ordered
    rw [hempty, List.append_nil] at hordered
    refine ⟨hnumbered, ?_, ?_, ?_, ?_⟩
    · simp only [Queue.keepUp_datagrams, hempty, List.append_nil]
      exact hordered.append (List.Sublist.refl _)
    · refine accounted_snoc h.accounted (List.subset_append_left _ _) (List.Subset.refl _) ?_
        (.inl (List.mem_append_right _ (List.mem_singleton_self _)))
      rw [Queue.keepUp_datagrams]
      exact List.Subset.refl _
    · rw [Queue.keepUp_bytes, Queue.keepUp_datagrams]
      exact h.bytes
    · rw [Queue.keepUp_bytes]
      exact h.bounded
  · rw [hsent]
    refine ⟨hnumbered, ?_, ?_, h.bytes, h.bounded⟩
    · rw [List.append_nil]
      exact h.ordered.trans (List.sublist_append_left _ _)
    · rw [List.append_nil]
      exact accounted_snoc h.accounted (List.Subset.refl _) (List.subset_append_left _ _) (List.Subset.refl _)
        (.inr (.inl (List.mem_append_right _ (List.mem_singleton_self _))))
  · rw [hsent]
    refine ⟨hnumbered, ?_, ?_, ?_, hfits⟩
    · rw [List.append_nil, ← List.append_assoc]
      exact h.ordered.append (List.Sublist.refl _)
    · rw [List.append_nil]
      exact accounted_snoc h.accounted (List.Subset.refl _) (List.Subset.refl _) (List.subset_append_left _ _)
        (.inr (.inr (List.mem_append_right _ (List.mem_singleton_self _))))
    · rw [total_snoc, ← h.bytes]

theorem total_append_left (handed left : List (Datagram α)) : total left ≤ total (handed ++ left) := by
  unfold total
  rw [List.map_append, List.sum_append]
  exact Nat.le_add_left _ _

theorem Sound.flush (h : Sound world) (now : Nat) (accepts : Nat → Bool) :
    Sound (step world (.flush now accepts)) := by
  obtain ⟨hsplit, hbytes⟩ := Queue.flush_spec h.bytes now accepts
  have hordered := h.ordered
  rw [← hsplit, ← List.append_assoc] at hordered
  refine ⟨h.numbered, hordered, fun datagram hgiven => ?_, hbytes, ?_⟩
  · obtain hh | hr | hd | hq := h.accounted datagram hgiven
    · exact .inl (List.mem_append_left _ hh)
    · exact .inr (.inl hr)
    · exact .inr (.inr (.inl hd))
    · rw [← hsplit] at hq
      exact (List.mem_append.mp hq).elim (fun hh => .inl (List.mem_append_right _ hh))
        fun hq => .inr (.inr (.inr hq))
  · have hbounded := h.bounded
    rw [h.bytes, ← hsplit] at hbounded
    show (world.queue.flush now accepts).queue.bytes ≤ QUEUE_BYTES
    rw [hbytes]
    exact (total_append_left _ _).trans hbounded

theorem Sound.fallBehind (h : Sound world) (now : Nat) : Sound (step world (.fallBehind now)) := by
  obtain ⟨hhanded, ⟨hreturned, hqueue, hbytes⟩ | ⟨hreturned, hqueue, hbytes⟩⟩ := world.queue.fallBehind_cases now
  · unfold step
    refine ⟨h.numbered, ?_, ?_, ?_, ?_⟩
    · show (world.handed ++ (world.queue.fallBehind now).handed ++ _).Sublist world.given
      rw [hhanded, List.append_nil, hqueue]
      exact h.ordered
    · dsimp only
      rw [hhanded, List.append_nil, hqueue, hreturned]
      exact h.accounted
    · exact hbytes.trans (h.bytes.trans (congrArg total hqueue.symm))
    · exact hbytes.trans_le h.bounded
  · unfold step
    refine ⟨h.numbered, ?_, ?_, ?_, ?_⟩
    · show (world.handed ++ (world.queue.fallBehind now).handed ++ _).Sublist world.given
      rw [hhanded, List.append_nil, hqueue, List.append_nil]
      exact (List.sublist_append_left _ _).trans h.ordered
    · intro datagram hgiven
      dsimp only
      rw [hhanded, List.append_nil, hreturned, if_pos rfl]
      -- what was queued is dropped
      obtain hh | hr | hd | hq := h.accounted datagram hgiven
      · exact .inl hh
      · exact .inr (.inl hr)
      · exact .inr (.inr (.inl (List.mem_append_left _ hd)))
      · exact .inr (.inr (.inl (List.mem_append_right _ hq)))
    · exact hbytes.trans (congrArg total hqueue.symm)
    · exact hbytes.trans_le (Nat.zero_le _)

theorem sound_initial : Sound (World.initial : World α) :=
  ⟨rfl, List.Sublist.refl _, fun _ hgiven => absurd hgiven List.not_mem_nil, rfl, Nat.zero_le _⟩

theorem Sound.step (h : Sound world) (call : Call α) : Sound (step world call) := by
  cases call with
  | send source destination contents now accepts => exact h.send source destination contents now accepts
  | flush now accepts => exact h.flush now accepts
  | fallBehind now => exact h.fallBehind now

theorem Sound.foldl (h : Sound world) (calls : List (Call α)) : Sound (calls.foldl Webrtc.step world) := by
  induction calls generalizing world with
  | nil => exact h
  | cons call calls ih => exact ih (h.step call)

/-- **Every datagram is accounted for.** After any calls, at any times and with any answers of `try_send`:
    what was handed to the socket is part of what was given, in order and each at most once; a datagram
    that is missing was refused, was dropped with its queue, or waits; and `bytes` is the length of what
    waits, at most `QUEUE_BYTES`. -/
theorem run_accounted (calls : List (Call α)) :
    (run calls).handed.Sublist (run calls).given ∧ (run calls).given.Nodup ∧
      (∀ datagram ∈ (run calls).given, datagram ∉ (run calls).handed →
        datagram ∈ (run calls).refused ∨ datagram ∈ (run calls).dropped ∨
          datagram ∈ (run calls).queue.datagrams) ∧
      (run calls).queue.bytes = ((run calls).queue.datagrams.map Datagram.size).sum ∧
      (run calls).queue.bytes ≤ QUEUE_BYTES := by
  have hsound : Sound (run calls) := sound_initial.foldl calls
  refine ⟨(List.sublist_append_left _ _).trans hsound.ordered, ?_, ?_, hsound.bytes, hsound.bounded⟩
  · refine List.Nodup.of_map Datagram.number ?_
    rw [hsound.numbered]
    exact List.nodup_range
  · intro datagram hgiven hmissing
    exact (hsound.accounted datagram hgiven).resolve_left hmissing

/-- A refusal, a partial flush, and the rest let go. -/
example : (run [.send 1 2 [0] 0 true, .send 1 2 [0] 5 false, .send 1 2 [7] 6 true, .flush 7 (· < 1),
    .fallBehind (8 + QUEUE_LIMIT)]).handed.map Datagram.number = [0, 1] := by decide

end Ceres.Webrtc
