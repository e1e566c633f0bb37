/-
  File:      Ceres/Connection/Ordering.lean
  Subject:   THE ORDER OF RECEIVED MESSAGES (`ceres/connection/__init__.py`, `ceres/connection/buffer.py`).

  A drain moves the timestamps of its frames forward until each is behind the one before. The next drain
  starts from the clock again, so its first frame is behind the messages stored only if the clock is.

  * `step` -- the loop with a clock that never goes back; `InOrder` -- the timestamps rise;
  * `splitFrom_rise` -- the timestamps of one drain rise, and the first is that of its last byte;
  * `InTime` -- the last byte of the first frame was received after the last message's timestamp;
  * **`messages_in_order_iff`** -- the messages are in order along a run exactly if each drain is in time;
  * `burst_out_of_order` -- three lines in one chunk, one in a chunk a microsecond later.
-/
import Ceres.Connection.Framing
import Ceres.Connection.RunLoop
import Ceres.Library.Run

namespace Ceres.Connection

open Ceres.Library

/-! ## 1. Runs -/

inductive Action where
  /-- The code at a place, with what the clock shows. -/
  | code (now : DateTime)
  | event (event : Event)

/-- A step of the loop; the clock does not go back. -/
def step (config : Config) (s : State) : Action → Option State
  | .code now => if s.clock ≤ now then advance config now s else none
  | .event event => resume s event

/-- The timestamps of the messages rise. -/
def InOrder (s : State) : Prop := (s.stored.map Chunk.timestamp).Pairwise (· < ·)

/-- The buffer that is drained when data is handled. -/
def drainable (config : Config) (now : DateTime) (s : State) : Option Buffer :=
  match s.place with
  | .handle (some (byte :: rest)) => do
    let pushed ← s.buffer.push now (.bytes (byte :: rest)) (some (.datetime now))
    let (_, kept) ← pushed.popTo config.bufferSize config.bufferDrop
    return kept
  | _ => none

/-- When the last byte of the first frame was received. -/
def firstReceived (config : Config) (buffer : Buffer) : Option DateTime :=
  ((config.splitter buffer).find? fun split => (buffer.timestampAt (split - 1)).isSome).bind fun split =>
    buffer.timestampAt (split - 1)

/-- The last byte of the first frame was received after the timestamp of the last message. -/
def InTime (config : Config) (s : State) : Action → Prop
  | .code now => s.clock ≤ now → ∀ buffer ∈ drainable config now s, ∀ received ∈ firstReceived config buffer,
      ∀ message ∈ s.stored.getLast?, message.timestamp < received
  | .event _ => True

/-! ## 2. One drain -/

theorem splitFrom_rise (b : Buffer) : ∀ (splits : List Int) (previous : Buffer.VirtualChunk),
    (previous.timestamp :: (b.splitFrom true (some previous) splits).map (·.timestamp)).Pairwise (· < ·)
  | [], previous => List.pairwise_singleton _ _
  | split :: rest, previous => by
    rw [Buffer.splitFrom]
    cases htime : b.timestampAt (split - 1) with
    | none => exact splitFrom_rise b rest previous
    | some t =>
      dsimp only
      split
      · exact splitFrom_rise b rest previous
      · have hlater : previous.timestamp < Buffer.linearized true (some previous) t := by
          unfold Buffer.linearized
          dsimp only
          split
          · exact lt_add_one _
          · rename_i hbehind
            exact not_le.mp fun hle => hbehind ⟨rfl, hle⟩
        have hrest := splitFrom_rise b rest
          ⟨((some previous).map (·.stop)).getD 0, split.toNat, Buffer.linearized true (some previous) t⟩
        rw [List.map_cons]
        refine List.pairwise_cons.mpr ⟨fun later hmem => ?_, hrest⟩
        rcases List.mem_cons.mp hmem with rfl | hmem
        · exact hlater
        · exact hlater.trans (List.rel_of_pairwise_cons hrest hmem)

theorem splitFrom_none (b : Buffer) : ∀ splits : List Int,
    (∀ split ∈ splits, (b.timestampAt (split - 1)).isSome = false) → b.splitFrom true none splits = []
  | [], _ => rfl
  | split :: rest, h => by
    obtain ⟨hfirst, hrest⟩ := List.forall_mem_cons.mp h
    have hnone : b.timestampAt (split - 1) = none := Option.not_isSome_iff_eq_none.mp (by rw [hfirst]; decide)
    rw [Buffer.splitFrom, hnone]
    exact splitFrom_none b rest hrest

theorem splitFrom_first (b : Buffer) : ∀ (splits : List Int) (split : Int) (t : DateTime),
    (splits.find? fun split => (b.timestampAt (split - 1)).isSome) = some split →
    b.timestampAt (split - 1) = some t →
      ∃ later, (b.splitFrom true none splits).map (·.timestamp) = t :: later ∧ (t :: later).Pairwise (· < ·)
  | [], _, _, h, _ => by cases h
  | other :: rest, split, t, h, ht => by
    rw [List.find?_cons] at h
    rw [Buffer.splitFrom]
    cases htime : b.timestampAt (other - 1) with
    | none =>
      rw [htime] at h
      exact splitFrom_first b rest split t h ht
    | some t' =>
      rw [htime] at h
      obtain rfl : other = split := Option.some.inj h
      obtain rfl : t' = t := Option.some.inj (htime.symm.trans ht)
      have hpositive := (Ledger.timestampAt_lt htime).1
      dsimp only
      rw [if_neg (by simpa using hpositive)]
      exact ⟨_, rfl, splitFrom_rise b rest ⟨0, other.toNat, t'⟩⟩

/-- **The timestamps of a drain** rise from the instant its first frame was received. -/
theorem drain_rise (config : Config) (b : Buffer) :
    ∃ later, (b.drain (config.splitter b) true).1.map Chunk.timestamp = (firstReceived config b).toList ++ later ∧
      ((firstReceived config b).toList ++ later).Pairwise (· < ·) ∧ (firstReceived config b = none → later = []) := by
  have hviews : (b.drain (config.splitter b) true).1.map Chunk.timestamp =
      (b.splitFrom true none (config.splitter b)).map (·.timestamp) := by
    unfold Buffer.drain Buffer.split
    dsimp only
    cases (b.splitFrom true none (config.splitter b)).getLast? <;>
      simp [List.map_map, Function.comp_def, Buffer.resolve]
  rw [hviews]
  unfold firstReceived
  cases hfind : (config.splitter b).find? fun split => (b.timestampAt (split - 1)).isSome with
  | none =>
    rw [List.find?_eq_none] at hfind
    rw [splitFrom_none b _ fun split hsplit => Bool.not_eq_true _ ▸ hfind split hsplit]
    exact ⟨[], rfl, .nil, fun _ => rfl⟩
  | some split =>
    have hsome : (b.timestampAt (split - 1)).isSome = true :=
      @List.find?_some _ (fun split => (b.timestampAt (split - 1)).isSome) split _ hfind
    obtain ⟨t, ht⟩ := Option.isSome_iff_exists.mp hsome
    obtain ⟨later, hmap, hrise⟩ := splitFrom_first b _ split t hfind ht
    refine ⟨later, ?_, ?_, ?_⟩
    · rw [hmap, Option.bind_some, ht]
      rfl
    · rw [Option.bind_some, ht]
      exact hrise
    · rw [Option.bind_some, ht]
      intro h
      cases h

/-! ## 3. The order along a run -/

theorem advance_stored {config : Config} {now : DateTime} {s s' : State} (h : advance config now s = some s') :
    (∃ buffer, drainable config now s = some buffer ∧
        s'.stored = s.stored ++ (buffer.drain (config.splitter buffer) true).1) ∨
      (drainable config now s = none ∧ s'.stored = s.stored) := by
  have hother : ∀ {place : Place}, s.place = place → (∀ byte rest, place ≠ .handle (some (byte :: rest))) →
      drainable config now s = none := by
    intro place hplace hne
    unfold drainable
    split
    · rename_i byte rest hhandle
      exact absurd (hplace.symm.trans hhandle) (hne byte rest)
    · rfl
  unfold advance at h
  cases hs : s.place with
  | handle received =>
    rw [hs] at h
    dsimp only at h
    split at h
    · refine .inr ⟨hother hs (by simp), ?_⟩
      split at h <;> obtain rfl := Option.some.inj h <;> rfl
    · refine .inr ⟨hother hs (by simp), ?_⟩
      split at h <;> obtain rfl := Option.some.inj h <;> rfl
    · rename_i byte rest
      obtain rfl := Option.some.inj h
      unfold drainable handleData
      rw [hs]
      dsimp only
      cases s.buffer.push now (.bytes (byte :: rest)) (some (.datetime now)) with
      | none => exact .inr ⟨rfl, rfl⟩
      | some pushed =>
        dsimp only
        rw [Option.bind_eq_bind, Option.bind_some]
        cases pushed.popTo config.bufferSize config.bufferDrop with
        | none => exact .inr ⟨rfl, rfl⟩
        | some popped => exact .inl ⟨popped.2, rfl, rfl⟩
  | outer | retry _ | dial _ | reading | closing | delaying _ | yielding _ | connecting _ | receiving
  | settling _ | disconnecting _ | stopped =>
    refine .inr ⟨hother hs (by simp), ?_⟩
    rw [hs] at h
    dsimp only at h
    first
      | cases h
      | (repeat' split at h) <;> obtain rfl := Option.some.inj h <;> rfl

theorem resume_stored {s s' : State} {event : Event} (h : resume s event = some s') : s'.stored = s.stored := by
  cases event <;> unfold resume at h <;> dsimp only at h <;> (repeat' split at h) <;>
    first
      | (obtain rfl := Option.some.inj h; rfl)
      | cases h

theorem exists_last {s : State} (h : InOrder s) {message : Chunk} (hmessage : message ∈ s.stored) :
    ∃ last ∈ s.stored.getLast?, message.timestamp ≤ last.timestamp := by
  obtain ⟨front, last, hstored⟩ := List.eq_nil_or_concat s.stored |>.resolve_left (List.ne_nil_of_mem hmessage)
  unfold InOrder at h
  rw [hstored, List.concat_eq_append] at hmessage ⊢
  rw [hstored, List.concat_eq_append, List.map_append] at h
  refine ⟨last, by simp, ?_⟩
  rcases List.mem_append.mp hmessage with hfront | hlast
  · exact ((List.pairwise_append.mp h).2.2 _ (List.mem_map_of_mem hfront) _ (by simp)).le
  · rw [List.mem_singleton.mp hlast]

/-- **One step** leaves the messages in order exactly if it is in time. -/
theorem inOrder_step {config : Config} {s s' : State} {action : Action} (hs : InOrder s)
    (h : step config s action = some s') : InOrder s' ↔ InTime config s action := by
  cases action with
  | event event =>
    have hstored := resume_stored h
    exact ⟨fun _ => trivial, fun _ => by unfold InOrder; rw [hstored]; exact hs⟩
  | code now =>
    unfold step at h
    dsimp only at h
    split at h
    · rename_i hsteady
      unfold InTime InOrder
      dsimp only
      rcases advance_stored h with ⟨buffer, hbuffer, hstored⟩ | ⟨hnone, hstored⟩
      · obtain ⟨later, hmap, hrise, hempty⟩ := drain_rise config buffer
        rw [hstored, List.map_append, hmap, hbuffer]
        constructor
        · intro hpairs _ buffer' hbuffer' received hreceived message hmessage
          obtain rfl := Option.some.inj hbuffer'
          rw [Option.mem_def.mp hreceived] at hpairs
          have hmem : message ∈ s.stored := List.mem_of_getLast? hmessage
          exact (List.pairwise_append.mp hpairs).2.2 _ (List.mem_map_of_mem hmem) _ (by simp)
        · intro hin
          refine List.pairwise_append.mpr ⟨hs, hrise, ?_⟩
          cases hfirst' : firstReceived config buffer with
          | none => simp [hempty hfirst']
          | some received =>
            rw [hfirst'] at hrise
            intro t ht t' ht'
            obtain ⟨message, hmessage, rfl⟩ := List.mem_map.mp ht
            obtain ⟨last, hlast, hle⟩ := exists_last hs hmessage
            have hfirst : received ≤ t' := by
              rcases List.mem_cons.mp ht' with rfl | hlater
              · exact le_refl _
              · exact (List.rel_of_pairwise_cons hrise hlater).le
            exact (hle.trans_lt (hin hsteady buffer rfl received hfirst' last hlast)).trans_le hfirst
      · rw [hstored, hnone]
        exact ⟨fun _ _ buffer hbuffer => (by cases hbuffer), fun _ => hs⟩
    · cases h

/-- **The order of received messages.** Along every run of the loop the timestamps of the messages rise exactly if
    each drain is in time. -/
theorem messages_in_order_iff (config : Config) (t : DateTime) (actions : List Action) :
    Always (step config) InOrder { clock := t } actions ↔ Along (step config) (InTime config) { clock := t } actions := by
  refine always_iff_along (I := InOrder) (fun s h => h) ?_ (fun s action s' hs hstep h => (inOrder_step hs hstep).mp h)
    (fun s action s' hs hstep h => (inOrder_step hs hstep).mpr h) actions _ .nil
  intro s action hnone
  cases action with
  | event event => trivial
  | code now =>
    unfold InTime
    intro hsteady buffer hbuffer
    unfold step at hnone
    dsimp only at hnone
    rw [if_pos hsteady] at hnone
    unfold drainable at hbuffer
    split at hbuffer
    · rename_i hplace
      rw [advance, hplace] at hnone
      cases hnone
    · cases hbuffer

/-! ## 4. A burst -/

def lines : Config where
  reconnectSchedule := none
  splitter := splitByLine
  bufferSize := 65536
  bufferDrop := 4096

/-- A connection that receives a chunk at one instant and a chunk at another. -/
def receiveTwice (first : List UInt8) (now : DateTime) (second : List UInt8) (later : DateTime) : List Action :=
  [.code 0, .code 0, .event .slept, .code 0, .event (.connects true)] ++
    [.code now, .event (.receives (some first)), .event .slept, .code now] ++
    [.code later, .event (.receives (some second)), .event .slept, .code later]

/-- Three lines received at 0 are stored at 0, 1 and 2 microseconds, a line received at 1 is stored at 1. -/
theorem burst_out_of_order :
    (run (step lines) { clock := 0 } (receiveTwice [10, 10, 10] 0 [10] 1)).map (·.stored.map Chunk.timestamp) =
      some [0, 1, 2, 1] ∧
    ¬ Always (step lines) InOrder { clock := 0 } (receiveTwice [10, 10, 10] 0 [10] 1) := by
  have hstored : (run (step lines) { clock := 0 } (receiveTwice [10, 10, 10] 0 [10] 1)).map
      (·.stored.map Chunk.timestamp) = some [0, 1, 2, 1] := by decide
  refine ⟨hstored, fun h => ?_⟩
  obtain ⟨s, hrun, hs⟩ := Option.map_eq_some_iff.mp hstored
  have horder : InOrder s := h.last hrun
  unfold InOrder at horder
  rw [hs] at horder
  revert horder
  decide

end Ceres.Connection
