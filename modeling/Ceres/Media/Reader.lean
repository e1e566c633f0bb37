/-
  File:      Ceres/Media/Reader.lean
  Subject:   THE READER OF A MEDIA SOURCE (`rust/ceres-media/src/remux/reader.rs`), and that every viewer can
             decode what it is sent.

  One reader publishes the packets of a source to every stream that reads it. A stream that falls behind
  skips to a keyframe, and one that joins in between starts from the packets since the last keyframe,
  which the reader keeps.

  * `step` -- new tracks, packets, outages and the streams' joining, leaving and taking, in any order;
  * `runs` -- what a stream is sent, cut at every `Track` and `Snapshot`;
  * `Decodable` -- each run starts with a keyframe and is a stretch of what its track published, and a
    snapshot holds the packets since the last keyframe;
  * `Calm` -- no delta packet comes first after a `Track`, or an empty `Snapshot`, to a stream that is
    sent it, and no stream joins on a cache that starts with one;
  * **`feeds_decodable`** -- every state of a run is decodable exactly when each of its steps is calm;
  * `starts_mid_picture` -- a source whose first packet is a delta.
-/
import Mathlib.Data.List.Infix
import Mathlib.Logic.Function.Basic
import Ceres.Library.Run

namespace Ceres.Media.Reader

open Ceres.Library

set_option linter.unusedSectionVars false

/-! ## 1. The reader -/

/-- How many packets may wait for a stream before it skips to the next keyframe. -/
def FEED_BACKLOG : Nat := 256

/-- The most bytes of packets kept since the last keyframe. -/
def GOP_CACHE_BYTES : Nat := 16 * 2 ^ 20

variable {π ε : Type}

structure MediaPacket (π : Type) where
  isKey : Bool
  size : Nat
  payload : π

inductive StreamNotice where
  | retrying
  | reconnected (attempts : Nat)

/-- What a reader sends each stream. A snapshot is marked with how many packets its track had published
    by then. -/
inductive Feed (π ε : Type) where
  | track (track : Nat)
  | snapshot (track : Nat) (packets : List (MediaPacket π)) (published : Nat)
  | packet (packet : MediaPacket π)
  | lost (error : Option ε)
  | notice (notice : StreamNotice)
  | done (error : Option ε)

structure Subscriber (π ε : Type) where
  id : Nat
  /-- All that was sent, and how much of it the stream has taken. -/
  feed : List (Feed π ε)
  taken : Nat
  pending : Nat
  waiting : Bool
  lost : Bool
  /-- The stream has dropped its end, and sending fails. -/
  gone : Bool

namespace Subscriber

def send (subscriber : Subscriber π ε) (feed : Feed π ε) : Option (Subscriber π ε) :=
  if subscriber.gone then none else some { subscriber with feed := subscriber.feed ++ [feed] }

/-- A packet is counted as pending, and sent. -/
def give (subscriber : Subscriber π ε) (packet : MediaPacket π) : Option (Subscriber π ε) :=
  send { subscriber with pending := subscriber.pending + 1 } (.packet packet)

/-- The track again, and the stream no longer waits. -/
def resume (subscriber : Subscriber π ε) (track : Nat) : Option (Subscriber π ε) :=
  (subscriber.send (.track track)).map fun subscriber => { subscriber with waiting := false }

/-- What `publish` does for one stream; `none` when it is dropped. -/
def publish (track : Nat) (packet : MediaPacket π) (subscriber : Subscriber π ε) :
    Option (Subscriber π ε) :=
  if subscriber.waiting then
    if !packet.isKey || decide (FEED_BACKLOG ≤ subscriber.pending) then some subscriber
    else (subscriber.resume track).bind fun subscriber => subscriber.give packet
  else if FEED_BACKLOG ≤ subscriber.pending then some { subscriber with waiting := true }
  else subscriber.give packet

/-- The stream takes the next of its feed. -/
def take (subscriber : Subscriber π ε) : Subscriber π ε :=
  match subscriber.feed[subscriber.taken]? with
  | none => subscriber
  | some (.packet _) =>
    { subscriber with
      taken := subscriber.taken + 1
      pending := subscriber.pending - 1 }
  | some _ => { subscriber with taken := subscriber.taken + 1 }

end Subscriber

structure Outage (ε : Type) where
  attempts : Nat
  reason : Option ε
  scheduled : Bool

structure State (π ε : Type) where
  subscribers : List (Subscriber π ε)
  nextId : Nat
  track : Option Nat
  gop : List (MediaPacket π)
  gopBytes : Nat
  gopValid : Bool
  outage : Option (Outage ε)
  closed : Bool
  /-- How many tracks there were, and what each has published. -/
  tracks : Nat
  published : Nat → List (MediaPacket π)

def State.initial : State π ε := ⟨[], 0, none, [], 0, false, none, false, 0, fun _ => []⟩

inductive Action (π ε : Type) where
  /-- A new connection when copying, a new encoder when re-encoding. -/
  | newTrack
  | publish (packet : MediaPacket π)
  | lost (error : Option ε)
  | received
  | schedule
  | close (error : Option ε)
  | join
  | leave (id : Nat)
  | take (id : Nat)
  | hangUp (id : Nat)

namespace State

def broadcast (s : State π ε) (feed : Feed π ε) : State π ε :=
  { s with subscribers := s.subscribers.filterMap fun subscriber => subscriber.send feed }

/-- The streams that were told of the outage are told how it goes. -/
def tellLost (s : State π ε) (feed : Feed π ε) : State π ε :=
  { s with
    subscribers := s.subscribers.filterMap fun subscriber =>
      if subscriber.lost then subscriber.send feed else some subscriber }

def newTrack (s : State π ε) : State π ε :=
  broadcast
    { s with
      track := some s.tracks
      tracks := s.tracks + 1
      gop := []
      gopBytes := 0
      gopValid := true }
    (.track s.tracks)

/-- A keyframe starts the cache anew. -/
def restart (s : State π ε) (packet : MediaPacket π) : State π ε :=
  if packet.isKey then
    { s with
      gop := []
      gopBytes := 0
      gopValid := true }
  else s

/-- A cache that grows too large is given up until the next keyframe. -/
def keep (s : State π ε) (packet : MediaPacket π) : State π ε :=
  if s.gopValid then
    if GOP_CACHE_BYTES < s.gopBytes + packet.size then
      { s with
        gop := []
        gopBytes := 0
        gopValid := false }
    else
      { s with
        gop := s.gop ++ [packet]
        gopBytes := s.gopBytes + packet.size }
  else s

def publish (s : State π ε) (track : Nat) (packet : MediaPacket π) : State π ε :=
  let s := (s.restart packet).keep packet
  { s with
    subscribers := s.subscribers.filterMap (Subscriber.publish track packet)
    published := Function.update s.published track (s.published track ++ [packet]) }

def loseTrack (s : State π ε) (error : Option ε) : State π ε :=
  match s.outage with
  | some outage =>
    { s with outage := some { outage with attempts := outage.attempts + 1, reason := error } }
  | none =>
    { s with
      outage := some ⟨1, error, false⟩
      gop := []
      gopBytes := 0
      gopValid := false
      subscribers := s.subscribers.filterMap fun subscriber =>
        Subscriber.send { subscriber with lost := true } (.lost error) }

def received (s : State π ε) : State π ε :=
  match s.outage with
  | none => s
  | some outage =>
    let s := tellLost { s with outage := none } (.notice (.reconnected outage.attempts))
    { s with subscribers := s.subscribers.map fun subscriber => { subscriber with lost := false } }

def schedule (s : State π ε) : State π ε :=
  match s.outage with
  | none => s
  | some outage =>
    if outage.scheduled then s
    else tellLost { s with outage := some { outage with scheduled := true } } (.notice .retrying)

/-- What a stream that joins is sent, and whether it waits. -/
def welcome (s : State π ε) : List (Feed π ε) × Bool :=
  if s.outage.isSome then ([], true)
  else
    match s.track with
    | none => ([], false)
    | some track =>
      if s.gopValid then ([.snapshot track s.gop (s.published track).length], false)
      else ([.track track], true)

def join (s : State π ε) : State π ε :=
  { s with
    nextId := s.nextId + 1
    subscribers := s.subscribers ++
      [⟨s.nextId, s.welcome.1 ++ (if s.closed then [.done none] else []), 0, 0, s.welcome.2, false, false⟩] }

/-- Sending to all, then dropping all. -/
def close (s : State π ε) : State π ε :=
  { s with
    closed := true
    subscribers := [] }

def change (s : State π ε) (id : Nat) (f : Subscriber π ε → Subscriber π ε) : State π ε :=
  { s with
    subscribers := s.subscribers.map fun subscriber =>
      if subscriber.id = id then f subscriber else subscriber }

end State

def step (s : State π ε) : Action π ε → Option (State π ε)
  | .newTrack => some s.newTrack
  | .publish packet => s.track.map fun track => s.publish track packet
  | .lost error => some (s.loseTrack error)
  | .received => some s.received
  | .schedule => some s.schedule
  | .close error => some (s.broadcast (.done error)).close
  | .join => some s.join
  | .leave id =>
    some { s with subscribers := s.subscribers.filter fun subscriber => decide (subscriber.id ≠ id) }
  | .take id => some (s.change id Subscriber.take)
  | .hangUp id => some (s.change id fun subscriber => { subscriber with gone := true })

/-! ## 2. What a viewer can decode -/

/-- The packets after a `Track` or a `Snapshot`, a snapshot's own first. -/
structure Run (π : Type) where
  track : Option Nat
  packets : List (MediaPacket π)

/-- The runs of a feed, the last one first. -/
def push : List (Run π) → Feed π ε → List (Run π)
  | runs, .track track => ⟨some track, []⟩ :: runs
  | runs, .snapshot track packets _ => ⟨some track, packets⟩ :: runs
  | run :: runs, .packet packet => ⟨run.track, run.packets ++ [packet]⟩ :: runs
  | runs, _ => runs

def runs (feed : List (Feed π ε)) : List (Run π) := feed.foldl push [⟨none, []⟩]

/-- The run that the next packet joins. -/
def Subscriber.current (subscriber : Subscriber π ε) : Run π := (runs subscriber.feed).headD ⟨none, []⟩

/-- The packets kept: those since the last keyframe, or all where there is none. -/
def cached : List (MediaPacket π) → List (MediaPacket π)
  | [] => []
  | packet :: packets => if packets.any MediaPacket.isKey then cached packets else packet :: packets

/-- The packets since the last keyframe. -/
def sinceKey (packets : List (MediaPacket π)) : List (MediaPacket π) :=
  if packets.any MediaPacket.isKey then cached packets else []

/-- No packet, or a keyframe first. -/
def StartsWithKey (packets : List (MediaPacket π)) : Prop := ∀ first ∈ packets.head?, first.isKey = true

instance (packets : List (MediaPacket π)) : Decidable (StartsWithKey packets) := by
  unfold StartsWithKey
  infer_instance

/-- A run starts with a keyframe and is a stretch of what its track published. -/
structure Run.Decodable (published : Nat → List (MediaPacket π)) (run : Run π) : Prop where
  tracked : run.track = none → run.packets = []
  contiguous : ∀ track ∈ run.track, run.packets <:+: published track
  key : StartsWithKey run.packets

/-- A snapshot holds the packets that its track published since the last keyframe. -/
def Exact (published : Nat → List (MediaPacket π)) : Feed π ε → Prop
  | .snapshot track packets position =>
      position ≤ (published track).length ∧ packets = sinceKey ((published track).take position)
  | _ => True

structure Subscriber.Decodable (published : Nat → List (MediaPacket π)) (subscriber : Subscriber π ε) :
    Prop where
  runs : ∀ run ∈ runs subscriber.feed, run.Decodable published
  snapshots : ∀ feed ∈ subscriber.feed, Exact published feed

/-- Every stream's feed is decodable. -/
def Decodable (s : State π ε) : Prop :=
  ∀ subscriber ∈ s.subscribers, subscriber.Decodable s.published

/-- The stream is sent the packet. -/
def Subscriber.Receives (subscriber : Subscriber π ε) : Prop :=
  subscriber.gone = false ∧ subscriber.waiting = false ∧ subscriber.pending < FEED_BACKLOG

/-- No delta packet comes first to a stream, and none joins on a cache that starts with one. -/
def Calm (s : State π ε) : Action π ε → Prop
  | .publish packet => s.track.isSome = true → packet.isKey = true ∨
      ∀ subscriber ∈ s.subscribers, subscriber.Receives → subscriber.current.packets ≠ []
  | .join => s.outage = none → s.track.isSome = true → s.gopValid = true → StartsWithKey s.gop
  | _ => True

/-! ## 3. Runs and the cache -/

theorem runs_snoc (feed : List (Feed π ε)) (item : Feed π ε) : runs (feed ++ [item]) = push (runs feed) item := by
  unfold runs
  rw [List.foldl_append]
  rfl

theorem push_ne_nil {runs : List (Run π)} (h : runs ≠ []) (item : Feed π ε) : push runs item ≠ [] := by
  cases runs with
  | nil => exact absurd rfl h
  | cons run runs => cases item <;> simp [push]

theorem runs_ne_nil (feed : List (Feed π ε)) : runs feed ≠ [] := by
  induction feed using List.reverseRecOn with
  | nil => simp [runs]
  | append_singleton feed item ih =>
    rw [runs_snoc]
    exact push_ne_nil ih item

theorem current_mem (subscriber : Subscriber π ε) : subscriber.current ∈ runs subscriber.feed := by
  unfold Subscriber.current
  cases h : runs subscriber.feed with
  | nil => exact absurd h (runs_ne_nil _)
  | cons run rest => exact List.mem_cons_self

theorem runs_packet (subscriber : Subscriber π ε) (packet : MediaPacket π) :
    ∃ rest, runs subscriber.feed = subscriber.current :: rest ∧ runs (subscriber.feed ++ [.packet packet]) =
        ⟨subscriber.current.track, subscriber.current.packets ++ [packet]⟩ :: rest := by
  unfold Subscriber.current
  rw [runs_snoc]
  cases h : runs subscriber.feed with
  | nil => exact absurd h (runs_ne_nil _)
  | cons run rest => exact ⟨rest, rfl, rfl⟩

theorem any_snoc (packets : List (MediaPacket π)) (packet : MediaPacket π) :
    (packets ++ [packet]).any MediaPacket.isKey = (packets.any MediaPacket.isKey || packet.isKey) := by
  simp

/-- **The cache after a packet.** -/
theorem cached_snoc (packets : List (MediaPacket π)) (packet : MediaPacket π) :
    cached (packets ++ [packet]) = if packet.isKey then [packet] else cached packets ++ [packet] := by
  induction packets with
  | nil =>
    cases packet.isKey
    · rfl
    · rfl
  | cons first packets ih =>
    rw [List.cons_append, cached, any_snoc, ih]
    by_cases hkey : packet.isKey = true
    · simp [hkey]
    · by_cases hany : packets.any MediaPacket.isKey = true
      · simp [hkey, hany, cached]
      · simp [hkey, hany, cached]

theorem cached_suffix (packets : List (MediaPacket π)) : cached packets <:+ packets := by
  induction packets with
  | nil => exact List.suffix_rfl
  | cons first packets ih =>
    unfold cached
    split
    · exact ih.trans (List.suffix_cons _ _)
    · exact List.suffix_rfl

/-- A cache that starts with a keyframe is what was published since the last one. -/
theorem cached_eq_sinceKey {packets : List (MediaPacket π)} (h : StartsWithKey (cached packets)) :
    cached packets = sinceKey packets := by
  unfold sinceKey
  by_cases hany : packets.any MediaPacket.isKey = true
  · rw [if_pos hany]
  · rw [if_neg hany]
    cases packets with
    | nil => rfl
    | cons first packets =>
      rw [List.any_cons, Bool.or_eq_true, not_or] at hany
      unfold cached at h
      rw [if_neg hany.2] at h
      exact absurd (h first rfl) hany.1

/-! ## 4. One stream -/

/-- What holds of a stream: what it was sent is decodable, and unless it waits its current run is the end
    of what the current track has published. -/
structure Sound (published : Nat → List (MediaPacket π)) (track : Option Nat)
    (subscriber : Subscriber π ε) : Prop where
  decodable : subscriber.Decodable published
  current : subscriber.waiting = false → subscriber.current.track = track ∧
    ∀ number ∈ track, subscriber.current.packets <:+ published number

theorem Subscriber.Decodable.mono {published published' : Nat → List (MediaPacket π)}
    {subscriber : Subscriber π ε} (h : subscriber.Decodable published)
    (hgrows : ∀ track, published track <+: published' track) : subscriber.Decodable published' := by
  refine ⟨fun run hrun => ?_, fun feed hfeed => ?_⟩
  · have hold := h.runs run hrun
    exact ⟨hold.tracked, fun track htrack => (hold.contiguous track htrack).trans (hgrows track).isInfix,
      hold.key⟩
  · have hold := h.snapshots feed hfeed
    cases feed with
    | snapshot track packets position =>
      obtain ⟨hlength, hpackets⟩ := hold
      obtain ⟨more, hmore⟩ := hgrows track
      refine ⟨hlength.trans (hgrows track).length_le, ?_⟩
      rw [hpackets, ← hmore, List.take_append_of_le_length hlength]
    | _ => trivial

/-- A feed that is neither a track nor a packet changes no run. -/
def Feed.Neutral : Feed π ε → Prop
  | .lost _ => True
  | .notice _ => True
  | .done _ => True
  | _ => False

theorem push_neutral {feed : Feed π ε} (h : feed.Neutral) (runs : List (Run π)) : push runs feed = runs := by
  cases feed with
  | lost error => cases runs <;> rfl
  | notice notice => cases runs <;> rfl
  | done error => cases runs <;> rfl
  | _ => exact h.elim

theorem send_eq_some {subscriber sent : Subscriber π ε} {feed : Feed π ε} (h : subscriber.send feed = some sent) :
    subscriber.gone = false ∧ sent = { subscriber with feed := subscriber.feed ++ [feed] } := by
  unfold Subscriber.send at h
  split at h
  · exact absurd h (by simp)
  · rename_i hgone
    exact ⟨by simpa using hgone, (Option.some.inj h).symm⟩

variable {published : Nat → List (MediaPacket π)} {track : Option Nat}

theorem neutral_sound {subscriber sent : Subscriber π ε} {feed : Feed π ε}
    (h : Sound published track subscriber) (hfeed : feed.Neutral)
    (hsend : subscriber.send feed = some sent) : Sound published track sent := by
  obtain ⟨_, rfl⟩ := send_eq_some hsend
  have hruns : runs (subscriber.feed ++ [feed]) = runs subscriber.feed := by
    rw [runs_snoc, push_neutral hfeed]
  refine ⟨⟨?_, ?_⟩, ?_⟩
  · intro run hrun
    rw [hruns] at hrun
    exact h.decodable.runs run hrun
  · intro item hitem
    rcases List.mem_append.mp hitem with hitem | hitem
    · exact h.decodable.snapshots item hitem
    · rw [List.mem_singleton.mp hitem]
      cases feed with
      | snapshot track packets position => exact hfeed.elim
      | _ => trivial
  · intro hwaiting
    unfold Subscriber.current
    simp only [hruns]
    exact h.current hwaiting

variable {number : Nat}

theorem track_sound {published published' : Nat → List (MediaPacket π)} {subscriber sent : Subscriber π ε}
    (h : Sound published track subscriber) (hgrows : ∀ track, published track <+: published' track)
    (hsend : subscriber.send (.track number) = some sent) :
    Sound published' (some number) sent ∧ sent.current = ⟨some number, []⟩ := by
  obtain ⟨_, rfl⟩ := send_eq_some hsend
  have hruns : runs (subscriber.feed ++ [.track number]) = ⟨some number, []⟩ :: runs subscriber.feed := by
    rw [runs_snoc]
    rfl
  have hcurrent : Subscriber.current { subscriber with feed := subscriber.feed ++ [.track number] } =
      ⟨some number, []⟩ := by
    unfold Subscriber.current
    simp only [hruns]
    rfl
  have hmono := h.decodable.mono hgrows
  refine ⟨⟨⟨?_, ?_⟩, ?_⟩, hcurrent⟩
  · intro run hrun
    rw [hruns] at hrun
    rcases List.mem_cons.mp hrun with rfl | hrun
    · exact ⟨fun _ => rfl, fun _ _ => List.nil_infix, fun first hfirst => absurd hfirst (by simp)⟩
    · exact hmono.runs run hrun
  · intro item hitem
    rcases List.mem_append.mp hitem with hitem | hitem
    · exact hmono.snapshots item hitem
    · rw [List.mem_singleton.mp hitem]
      trivial
  · intro _
    rw [hcurrent]
    exact ⟨rfl, fun _ _ => List.nil_suffix⟩

/-- What is published once the track has one packet more. -/
def extend (published : Nat → List (MediaPacket π)) (track : Nat) (packet : MediaPacket π) :
    Nat → List (MediaPacket π) := Function.update published track (published track ++ [packet])

theorem extend_self (published : Nat → List (MediaPacket π)) (track : Nat) (packet : MediaPacket π) :
    extend published track packet track = published track ++ [packet] := Function.update_self _ _ _

theorem extend_grows (published : Nat → List (MediaPacket π)) (track : Nat) (packet : MediaPacket π)
    (other : Nat) : published other <+: extend published track packet other := by
  by_cases h : other = track
  · rw [h, extend_self]
    exact List.prefix_append _ _
  · rw [extend, Function.update_of_ne h]

theorem startsWithKey_snoc {packets : List (MediaPacket π)} {packet : MediaPacket π}
    (h : StartsWithKey packets) (hfirst : packet.isKey = true ∨ packets ≠ []) :
    StartsWithKey (packets ++ [packet]) := by
  cases packets with
  | nil =>
    intro first hmem
    rw [← Option.some.inj hmem]
    exact hfirst.resolve_right (by simp)
  | cons first packets => exact h

/-- **A packet is sent** to a stream that has all the current track published up to it. -/
theorem give_sound {subscriber sent : Subscriber π ε} {packet : MediaPacket π}
    (h : Sound published (some number) subscriber) (hwaiting : subscriber.waiting = false)
    (hfirst : packet.isKey = true ∨ subscriber.current.packets ≠ [])
    (hgive : subscriber.give packet = some sent) : Sound (extend published number packet) (some number) sent := by
  obtain ⟨_, rfl⟩ := send_eq_some hgive
  obtain ⟨rest, hruns, hruns'⟩ := runs_packet subscriber packet
  obtain ⟨htrack, hsuffix⟩ := h.current hwaiting
  have hmono := h.decodable.mono (extend_grows published number packet)
  have hextended : subscriber.current.packets ++ [packet] <:+ extend published number packet number := by
    obtain ⟨before, hbefore⟩ := hsuffix number rfl
    rw [extend_self, ← hbefore]
    exact ⟨before, (List.append_assoc _ _ _).symm⟩
  have hcurrent : Subscriber.current
      { subscriber with
        pending := subscriber.pending + 1
        feed := subscriber.feed ++ [.packet packet] } =
      ⟨subscriber.current.track, subscriber.current.packets ++ [packet]⟩ := by
    unfold Subscriber.current
    simp only [hruns']
    rfl
  refine ⟨⟨?_, ?_⟩, ?_⟩
  · intro run hrun
    rw [hruns'] at hrun
    rcases List.mem_cons.mp hrun with rfl | hrun
    · refine ⟨fun hnone => ?_, fun track hmem => ?_, ?_⟩
      · rw [htrack] at hnone
        exact absurd hnone (by simp)
      · rw [htrack, Option.mem_some_iff] at hmem
        rw [← hmem]
        exact hextended.isInfix
      · exact startsWithKey_snoc (h.decodable.runs _ (current_mem subscriber)).key hfirst
    · exact hmono.runs run (hruns ▸ List.mem_cons_of_mem _ hrun)
  · intro item hitem
    rcases List.mem_append.mp hitem with hitem | hitem
    · exact hmono.snapshots item hitem
    · rw [List.mem_singleton.mp hitem]
      trivial
  · intro _
    rw [hcurrent]
    refine ⟨htrack, fun track hmem => ?_⟩
    rw [← Option.some.inj hmem]
    exact hextended

/-- A stream that waits is told nothing of what passes. -/
theorem waiting_sound {published published' : Nat → List (MediaPacket π)} {subscriber : Subscriber π ε}
    (h : Sound published track subscriber) (hgrows : ∀ track, published track <+: published' track) :
    Sound published' track { subscriber with waiting := true } := by
  refine ⟨?_, fun hfalse => absurd hfalse (by simp)⟩
  have hmono := h.decodable.mono hgrows
  exact ⟨hmono.runs, hmono.snapshots⟩

/-- **A packet is published** to one stream. -/
theorem publish_sound {subscriber sent : Subscriber π ε} {packet : MediaPacket π}
    (h : Sound published (some number) subscriber)
    (hcalm : packet.isKey = true ∨ (subscriber.Receives → subscriber.current.packets ≠ []))
    (hpublish : subscriber.publish number packet = some sent) :
    Sound (extend published number packet) (some number) sent := by
  have hgrows := extend_grows published number packet
  unfold Subscriber.publish at hpublish
  by_cases hwaiting : subscriber.waiting = true
  · rw [if_pos hwaiting] at hpublish
    split at hpublish
    · obtain rfl := Option.some.inj hpublish
      have hsame := waiting_sound h hgrows
      have heq : { subscriber with waiting := true } = subscriber := by
        rw [← hwaiting]
      rw [heq] at hsame
      exact hsame
    · rename_i hresumes
      -- the track again, and then the keyframe as the first of its run
      have hkey : packet.isKey = true := by
        simp only [Bool.or_eq_true, Bool.not_eq_true', not_or, Bool.not_eq_false] at hresumes
        exact hresumes.1
      obtain ⟨resumed, hresume, hgive⟩ := Option.bind_eq_some_iff.mp hpublish
      obtain ⟨told, hsend, rfl⟩ := Option.map_eq_some_iff.mp hresume
      obtain ⟨hsound, hcurrent⟩ := track_sound h (fun _ => List.prefix_rfl) hsend
      have hresumed : Sound published (some number) { told with waiting := false } := by
        refine ⟨⟨hsound.decodable.runs, hsound.decodable.snapshots⟩, fun _ => ?_⟩
        have hsame : Subscriber.current { told with waiting := false } = told.current := rfl
        rw [hsame, hcurrent]
        exact ⟨rfl, fun _ _ => List.nil_suffix⟩
      exact give_sound hresumed rfl (.inl hkey) hgive
  · rw [if_neg hwaiting] at hpublish
    split at hpublish
    · obtain rfl := Option.some.inj hpublish
      exact waiting_sound h hgrows
    · rename_i hroom
      have hgone : subscriber.gone = false := (send_eq_some hpublish).1
      have hreceives : subscriber.Receives := ⟨hgone, by simpa using hwaiting, Nat.lt_of_not_le hroom⟩
      exact give_sound h hreceives.2.1 (hcalm.imp_right fun hcalm => hcalm hreceives) hpublish

theorem publish_undecodable {subscriber : Subscriber π ε} {packet : MediaPacket π}
    (hreceives : subscriber.Receives) (hkey : packet.isKey ≠ true) (hempty : subscriber.current.packets = []) :
    ∃ sent, subscriber.publish number packet = some sent ∧ ¬ sent.Decodable published := by
  obtain ⟨hgone, hwaiting, hroom⟩ := hreceives
  refine ⟨{ subscriber with
    pending := subscriber.pending + 1
    feed := subscriber.feed ++ [.packet packet] }, ?_, ?_⟩
  · unfold Subscriber.publish
    rw [if_neg (by simp [hwaiting]), if_neg (Nat.not_le.mpr hroom)]
    unfold Subscriber.give Subscriber.send
    rw [if_neg (by simp [hgone])]
  · intro hdecodable
    obtain ⟨rest, _, hruns⟩ := runs_packet subscriber packet
    have hrun := hdecodable.runs ⟨subscriber.current.track, subscriber.current.packets ++ [packet]⟩
      (hruns ▸ List.mem_cons_self)
    have hfirst := hrun.key packet
    rw [hempty] at hfirst
    exact hkey (hfirst rfl)

/-! ## 5. The reader's steps -/

structure Inv (s : State π ε) : Prop where
  sound : ∀ subscriber ∈ s.subscribers, Sound s.published s.track subscriber
  gop : s.gopValid = true → ∀ track ∈ s.track, s.gop = cached (s.published track)
  track : ∀ track ∈ s.track, track < s.tracks
  fresh : ∀ track, s.tracks ≤ track → s.published track = []

theorem inv_initial : Inv (State.initial : State π ε) := by
  refine ⟨?_, ?_, ?_, fun _ _ => rfl⟩
  · exact fun subscriber hsubscriber => absurd hsubscriber List.not_mem_nil
  · exact fun hvalid => absurd hvalid (by simp [State.initial])
  · exact fun track htrack => absurd htrack (by simp [State.initial])

variable {s : State π ε}

theorem Inv.decodable (h : Inv s) : Decodable s :=
  fun subscriber hsubscriber => (h.sound subscriber hsubscriber).decodable

/-- A step that only tells the streams something, or drops some of them. -/
theorem Inv.tell {s s' : State π ε} (h : Inv s) (hsound : ∀ sent ∈ s'.subscribers, Sound s.published s.track sent)
    (hgop : s'.gopValid = true → s.gopValid = true ∧ s'.gop = s.gop) (htrack : s'.track = s.track)
    (htracks : s'.tracks = s.tracks) (hpublished : s'.published = s.published) : Inv s' := by
  refine ⟨?_, ?_, ?_, ?_⟩
  · rw [hpublished, htrack]
    exact hsound
  · intro hvalid
    obtain ⟨hvalid, heq⟩ := hgop hvalid
    rw [hpublished, htrack, heq]
    exact h.gop hvalid
  · rw [htrack, htracks]
    exact h.track
  · rw [htracks, hpublished]
    exact h.fresh

theorem newTrack_inv (h : Inv s) : Inv s.newTrack := by
  refine ⟨?_, ?_, ?_, ?_⟩
  · intro sent hsent
    obtain ⟨subscriber, hsubscriber, hsend⟩ := List.mem_filterMap.mp hsent
    exact (track_sound (h.sound subscriber hsubscriber) (fun _ => List.prefix_rfl) hsend).1
  · intro _ track htrack
    rw [← Option.some.inj htrack]
    have hfresh : s.published s.tracks = [] := h.fresh _ (Nat.le_refl _)
    have hempty : s.newTrack.published s.tracks = [] := hfresh
    rw [hempty]
    rfl
  · intro track htrack
    rw [← Option.some.inj htrack]
    exact Nat.lt_succ_self _
  · intro track htrack
    exact h.fresh track (Nat.le_of_succ_le htrack)

theorem keep_gop {packet : MediaPacket π} (h : s.gopValid = true → s.gop = cached (s.published number))
    (hvalid : ((s.restart packet).keep packet).gopValid = true) :
    ((s.restart packet).keep packet).gop = cached (s.published number ++ [packet]) := by
  rw [cached_snoc]
  unfold State.restart at hvalid ⊢
  by_cases hkey : packet.isKey = true
  · simp only [hkey, if_true] at hvalid ⊢
    unfold State.keep at hvalid ⊢
    simp only [if_true] at hvalid ⊢
    split at hvalid
    · exact absurd hvalid (by simp)
    · rename_i hsmall
      rw [if_neg hsmall]
      rfl
  · simp only [hkey, Bool.false_eq_true, if_false] at hvalid ⊢
    unfold State.keep at hvalid ⊢
    by_cases hold : s.gopValid = true
    · rw [if_pos hold] at hvalid ⊢
      split at hvalid
      · exact absurd hvalid (by simp)
      · rename_i hsmall
        rw [if_neg hsmall, ← h hold]
    · rw [if_neg hold] at hvalid
      exact absurd hvalid hold

/-- The cache has no part in the streams and the tracks. -/
theorem keep_frame (s : State π ε) (packet : MediaPacket π) :
    ((s.restart packet).keep packet).subscribers = s.subscribers ∧
      ((s.restart packet).keep packet).track = s.track ∧ ((s.restart packet).keep packet).tracks = s.tracks ∧
      ((s.restart packet).keep packet).published = s.published := by
  unfold State.restart
  split <;> unfold State.keep <;> split
  · split
    · exact ⟨rfl, rfl, rfl, rfl⟩
    · exact ⟨rfl, rfl, rfl, rfl⟩
  · exact ⟨rfl, rfl, rfl, rfl⟩
  · split
    · exact ⟨rfl, rfl, rfl, rfl⟩
    · exact ⟨rfl, rfl, rfl, rfl⟩
  · exact ⟨rfl, rfl, rfl, rfl⟩

theorem publish_frame (s : State π ε) (number : Nat) (packet : MediaPacket π) :
    (s.publish number packet).subscribers = s.subscribers.filterMap (Subscriber.publish number packet) ∧
      (s.publish number packet).track = s.track ∧ (s.publish number packet).tracks = s.tracks ∧
      (s.publish number packet).published = extend s.published number packet := by
  obtain ⟨hsubscribers, htrack, htracks, hpublished⟩ := keep_frame s packet
  unfold State.publish extend
  simp only [hsubscribers, htrack, htracks, hpublished]
  exact ⟨trivial, trivial, trivial, trivial⟩

theorem publish_inv {packet : MediaPacket π} (h : Inv s) (htrack : s.track = some number)
    (hcalm : packet.isKey = true ∨ ∀ subscriber ∈ s.subscribers, subscriber.Receives →
      subscriber.current.packets ≠ []) : Inv (s.publish number packet) := by
  obtain ⟨hsubscribers, hsame, htracks, hpublished⟩ := publish_frame s number packet
  refine ⟨?_, ?_, ?_, ?_⟩
  · rw [hsubscribers, hsame, hpublished, htrack]
    intro sent hsent
    obtain ⟨subscriber, hsubscriber, hpublish⟩ := List.mem_filterMap.mp hsent
    have hsound := h.sound subscriber hsubscriber
    rw [htrack] at hsound
    exact publish_sound hsound (hcalm.imp_right fun hcalm => hcalm subscriber hsubscriber) hpublish
  · intro hvalid track hmem
    rw [hsame, htrack, Option.mem_some_iff] at hmem
    rw [← hmem, hpublished, extend_self]
    exact keep_gop (fun hold => h.gop hold number htrack) hvalid
  · rw [hsame, htracks]
    exact h.track
  · rw [htracks, hpublished]
    intro track hle
    have hne : track ≠ number := by
      have hlt := h.track number htrack
      omega
    rw [extend, Function.update_of_ne hne]
    exact h.fresh track hle

theorem Sound.of_eq {subscriber subscriber' : Subscriber π ε} (h : Sound published track subscriber)
    (hfeed : subscriber'.feed = subscriber.feed) (hwaiting : subscriber'.waiting = subscriber.waiting) :
    Sound published track subscriber' := by
  have hcurrent : subscriber'.current = subscriber.current := by
    unfold Subscriber.current
    rw [hfeed]
  refine ⟨⟨?_, ?_⟩, ?_⟩
  · rw [hfeed]
    exact h.decodable.runs
  · rw [hfeed]
    exact h.decodable.snapshots
  · rw [hwaiting, hcurrent]
    exact h.current

theorem loseTrack_inv (h : Inv s) (error : Option ε) : Inv (s.loseTrack error) := by
  unfold State.loseTrack
  split
  · exact h.tell h.sound (fun hvalid => ⟨hvalid, rfl⟩) rfl rfl rfl
  · refine h.tell ?_ (fun hvalid => absurd hvalid (by simp)) rfl rfl rfl
    intro sent hsent
    obtain ⟨subscriber, hsubscriber, hsend⟩ := List.mem_filterMap.mp hsent
    have hsound : Sound s.published s.track { subscriber with lost := true } :=
      (h.sound subscriber hsubscriber).of_eq rfl rfl
    have hneutral : (Feed.lost error : Feed π ε).Neutral := trivial
    exact neutral_sound hsound hneutral hsend

theorem tellLost_sound {feed : Feed π ε} {sent : Subscriber π ε} (h : Inv s) (hfeed : feed.Neutral)
    (hsent : sent ∈ (s.tellLost feed).subscribers) : Sound s.published s.track sent := by
  obtain ⟨subscriber, hsubscriber, hsend⟩ := List.mem_filterMap.mp hsent
  have hsound := h.sound subscriber hsubscriber
  split at hsend
  · exact neutral_sound hsound hfeed hsend
  · obtain rfl := Option.some.inj hsend
    exact hsound

theorem received_inv (h : Inv s) : Inv s.received := by
  unfold State.received
  split
  · exact h
  · rename_i outage _
    refine h.tell ?_ (fun hvalid => ⟨hvalid, rfl⟩) rfl rfl rfl
    intro sent hsent
    obtain ⟨told, htold, rfl⟩ := List.mem_map.mp hsent
    have hsound : Sound s.published s.track told :=
      @tellLost_sound _ _ s (.notice (.reconnected outage.attempts)) told h trivial htold
    exact hsound.of_eq rfl rfl

theorem schedule_inv (h : Inv s) : Inv s.schedule := by
  unfold State.schedule
  split
  · exact h
  · split
    · exact h
    · refine h.tell ?_ (fun hvalid => ⟨hvalid, rfl⟩) rfl rfl rfl
      exact fun sent hsent => @tellLost_sound _ _ s (.notice .retrying) sent h trivial hsent

theorem empty_sound {subscriber : Subscriber π ε} (hfeed : subscriber.feed = [])
    (htrack : subscriber.waiting = false → track = none) : Sound published track subscriber := by
  have hruns : runs subscriber.feed = [⟨none, []⟩] := by
    rw [hfeed]
    rfl
  refine ⟨⟨?_, ?_⟩, ?_⟩
  · intro run hrun
    rw [hruns] at hrun
    rw [List.mem_singleton.mp hrun]
    exact ⟨fun _ => rfl, fun _ hnone => absurd hnone (by simp), fun _ hnone => absurd hnone (by simp)⟩
  · intro item hitem
    rw [hfeed] at hitem
    exact absurd hitem List.not_mem_nil
  · intro hwaiting
    rw [htrack hwaiting]
    have hcurrent : subscriber.current = ⟨none, []⟩ := by
      unfold Subscriber.current
      rw [hruns]
      rfl
    rw [hcurrent]
    exact ⟨rfl, fun _ hnone => absurd hnone (by simp)⟩

/-- **A stream joins** on a cache that starts with a keyframe, if it has one. -/
theorem snapshot_sound {subscriber : Subscriber π ε} (h : Inv s) (htrack : s.track = some number)
    (hvalid : s.gopValid = true) (hkey : StartsWithKey s.gop)
    (hfeed : subscriber.feed = [.snapshot number s.gop (s.published number).length]) :
    Sound s.published s.track subscriber := by
  have hgop := h.gop hvalid number htrack
  have hsuffix : s.gop <:+ s.published number := by
    rw [hgop]
    exact cached_suffix _
  have hruns : runs subscriber.feed = [⟨some number, s.gop⟩, ⟨none, []⟩] := by
    rw [hfeed]
    rfl
  refine ⟨⟨?_, ?_⟩, ?_⟩
  · intro run hrun
    rw [hruns] at hrun
    rcases List.mem_cons.mp hrun with rfl | hrun
    · refine ⟨fun hnone => absurd hnone (by simp), fun track hmem => ?_, hkey⟩
      rw [← Option.some.inj hmem]
      exact hsuffix.isInfix
    · rw [List.mem_singleton.mp hrun]
      exact ⟨fun _ => rfl, fun _ hnone => absurd hnone (by simp), fun _ hnone => absurd hnone (by simp)⟩
  · intro item hitem
    rw [hfeed] at hitem
    rw [List.mem_singleton.mp hitem]
    refine ⟨Nat.le_refl _, ?_⟩
    rw [List.take_length, hgop]
    rw [hgop] at hkey
    exact cached_eq_sinceKey hkey
  · intro _
    have hcurrent : subscriber.current = ⟨some number, s.gop⟩ := by
      unfold Subscriber.current
      rw [hruns]
      rfl
    rw [hcurrent, htrack]
    refine ⟨rfl, fun track hmem => ?_⟩
    rw [← Option.some.inj hmem]
    exact hsuffix

/-- The stream that joins, before it may be told that the reader has closed. -/
def State.joining (s : State π ε) : Subscriber π ε :=
  ⟨s.nextId, s.welcome.1, 0, 0, s.welcome.2, false, false⟩

theorem joining_sound (h : Inv s) (hcalm : Calm s .join) : Sound s.published s.track s.joining := by
  by_cases houtage : s.outage.isSome = true
  · have hwelcome : s.welcome = ([], true) := if_pos houtage
    refine empty_sound (by simp [State.joining, hwelcome]) fun hwaiting => ?_
    exact absurd hwaiting (by simp [State.joining, hwelcome])
  · have hnone : s.outage = none := by simpa using houtage
    cases htrack : s.track with
    | none =>
      have hwelcome : s.welcome = ([], false) := by simp [State.welcome, hnone, htrack]
      exact empty_sound (by simp [State.joining, hwelcome]) fun _ => rfl
    | some number =>
      by_cases hvalid : s.gopValid = true
      · have hwelcome : s.welcome = ([.snapshot number s.gop (s.published number).length], false) := by
          simp [State.welcome, hnone, htrack, hvalid]
        have hkey := hcalm hnone (by simp [htrack]) hvalid
        rw [← htrack]
        exact snapshot_sound h htrack hvalid hkey (by simp [State.joining, hwelcome])
      · have hwelcome : s.welcome = ([.track number], true) := by
          simp [State.welcome, hnone, htrack, hvalid]
        have hempty : Sound s.published none
            (⟨s.nextId, [], 0, 0, s.welcome.2, false, false⟩ : Subscriber π ε) :=
          empty_sound rfl fun _ => rfl
        have hsend : Subscriber.send (⟨s.nextId, [], 0, 0, s.welcome.2, false, false⟩ : Subscriber π ε)
            (.track number) = some s.joining := by
          simp [Subscriber.send, State.joining, hwelcome]
        exact (track_sound hempty (fun _ => List.prefix_rfl) hsend).1

theorem mem_join {subscriber : Subscriber π ε} (h : subscriber ∈ s.join.subscribers) :
    subscriber ∈ s.subscribers ∨ subscriber = s.joining ∨ s.joining.send (.done none) = some subscriber := by
  rcases List.mem_append.mp h with h | h
  · exact .inl h
  · rw [List.mem_singleton.mp h]
    by_cases hclosed : s.closed = true
    · rw [if_pos hclosed]
      exact .inr (.inr rfl)
    · rw [if_neg hclosed, List.append_nil]
      exact .inr (.inl rfl)

theorem join_inv (h : Inv s) (hcalm : Calm s .join) : Inv s.join := by
  have hjoining := joining_sound h hcalm
  refine h.tell ?_ (fun hvalid => ⟨hvalid, rfl⟩) rfl rfl rfl
  intro subscriber hsubscriber
  rcases mem_join hsubscriber with hold | rfl | hclosed
  · exact h.sound subscriber hold
  · exact hjoining
  · have hneutral : (Feed.done none : Feed π ε).Neutral := trivial
    exact neutral_sound hjoining hneutral hclosed

theorem change_inv {id : Nat} {f : Subscriber π ε → Subscriber π ε} (h : Inv s)
    (hf : ∀ subscriber, (f subscriber).feed = subscriber.feed ∧
      (f subscriber).waiting = subscriber.waiting) : Inv (s.change id f) := by
  refine h.tell ?_ (fun hvalid => ⟨hvalid, rfl⟩) rfl rfl rfl
  intro changed hchanged
  obtain ⟨subscriber, hsubscriber, rfl⟩ := List.mem_map.mp hchanged
  have hsound := h.sound subscriber hsubscriber
  split
  · exact hsound.of_eq (hf subscriber).1 (hf subscriber).2
  · exact hsound

theorem take_frame (subscriber : Subscriber π ε) :
    subscriber.take.feed = subscriber.feed ∧ subscriber.take.waiting = subscriber.waiting := by
  unfold Subscriber.take
  split
  · exact ⟨rfl, rfl⟩
  · exact ⟨rfl, rfl⟩
  · exact ⟨rfl, rfl⟩

/-- **One step** that is calm. -/
theorem step_inv (s : State π ε) (a : Action π ε) (s' : State π ε) (h : Inv s)
    (hstep : step s a = some s') (hcalm : Calm s a) : Inv s' := by
  cases a with
  | newTrack =>
    obtain rfl := Option.some.inj hstep
    exact newTrack_inv h
  | publish packet =>
    obtain ⟨number, htrack, rfl⟩ := Option.map_eq_some_iff.mp hstep
    exact publish_inv h htrack (hcalm (by simp [htrack]))
  | lost error =>
    obtain rfl := Option.some.inj hstep
    exact loseTrack_inv h error
  | received =>
    obtain rfl := Option.some.inj hstep
    exact received_inv h
  | schedule =>
    obtain rfl := Option.some.inj hstep
    exact schedule_inv h
  | close error =>
    obtain rfl := Option.some.inj hstep
    refine h.tell ?_ (fun hvalid => ⟨hvalid, rfl⟩) rfl rfl rfl
    exact fun subscriber hsubscriber => absurd hsubscriber List.not_mem_nil
  | join =>
    obtain rfl := Option.some.inj hstep
    exact join_inv h hcalm
  | leave id =>
    obtain rfl := Option.some.inj hstep
    refine h.tell ?_ (fun hvalid => ⟨hvalid, rfl⟩) rfl rfl rfl
    exact fun subscriber hsubscriber => h.sound subscriber (List.mem_filter.mp hsubscriber).1
  | take id =>
    obtain rfl := Option.some.inj hstep
    exact change_inv h take_frame
  | hangUp id =>
    obtain rfl := Option.some.inj hstep
    exact change_inv h fun _ => ⟨rfl, rfl⟩

theorem calm_of_disabled (s : State π ε) (a : Action π ε) (h : step s a = none) : Calm s a := by
  cases a with
  | publish packet =>
    intro htrack
    obtain ⟨number, htrack⟩ := Option.isSome_iff_exists.mp htrack
    simp only [step, htrack, Option.map_some] at h
    exact absurd h (by simp)
  | join => exact absurd h (by simp [step])
  | _ => trivial

theorem calm_of_step (s : State π ε) (a : Action π ε) (s' : State π ε) (_ : Inv s)
    (hstep : step s a = some s') (hdecodable : Decodable s') : Calm s a := by
  cases a with
  | publish packet =>
    intro _
    obtain ⟨number, htrack, rfl⟩ := Option.map_eq_some_iff.mp hstep
    by_cases hkey : packet.isKey = true
    · exact .inl hkey
    · refine .inr fun subscriber hsubscriber hreceives hempty => ?_
      obtain ⟨sent, hpublish, hnot⟩ :=
        @publish_undecodable _ _ (s.publish number packet).published number _ _ hreceives hkey hempty
      refine hnot (hdecodable sent ?_)
      rw [(publish_frame s number packet).1]
      exact List.mem_filterMap.mpr ⟨subscriber, hsubscriber, hpublish⟩
  | join =>
    intro houtage htrack hvalid
    obtain rfl := Option.some.inj hstep
    obtain ⟨number, htrack⟩ := Option.isSome_iff_exists.mp htrack
    have hwelcome : s.welcome = ([.snapshot number s.gop (s.published number).length], false) := by
      simp [State.welcome, houtage, htrack, hvalid]
    have hjoined := hdecodable _ (List.mem_append_right _ (List.mem_singleton_self _))
    have hrun : (⟨some number, s.gop⟩ : Run π) ∈ runs
        (s.welcome.1 ++ (if s.closed then [.done none] else [])) := by
      rw [hwelcome]
      cases s.closed with
      | true => exact List.mem_cons_self
      | false => exact List.mem_cons_self
    exact (hjoined.runs _ hrun).key
  | _ => trivial

/-- **Every viewer's feed is decodable**, in every state of a run, exactly when no delta packet is ever the
    first that a stream is sent after a `Track` or an empty `Snapshot`, and no stream joins while the
    cache starts with one. -/
theorem feeds_decodable (actions : List (Action π ε)) :
    Always step Decodable State.initial actions ↔ Along step Calm State.initial actions :=
  always_iff_along (fun _ h => h.decodable) calm_of_disabled calm_of_step step_inv actions _ inv_initial

/-- **A source that starts mid-picture.** Its first packet is a delta, and is sent right after the
    track. -/
theorem starts_mid_picture :
    ¬ ∀ actions : List (Action Unit Unit), Always step Decodable State.initial actions := by
  intro h
  have hrun := h [.join, .newTrack, .publish ⟨false, 1, ()⟩]
  have hlast : Decodable _ := (hrun.2 _ rfl).2 _ rfl |>.2 _ rfl
  have hdecodable := hlast _ (List.mem_singleton_self _)
  have hrun := hdecodable.runs ⟨some 0, [⟨false, 1, ()⟩]⟩ List.mem_cons_self
  exact absurd (hrun.key _ rfl) (by simp)

end Ceres.Media.Reader
