/-
  File:      Ceres/Webrtc/Session.lean
  Subject:   WHAT A BROWSER IS SENT (`rust/ceres-webrtc/src/session.rs`, `picture.rs`, and `first_picture` in
             `server.rs`).

  Until its browser connects, a session holds the packets since the last keyframe in a `Picture`, and then
  writes them. From there on it writes each packet as it is fed, except that after a new track or a skip
  it waits for the next keyframe.

  * `Picture.hold`, `firstPicture` -- the frames held, and those read while the session is opened;
  * `Session.feed`, `Session.connect`, `Session.skipToKey` -- what moves a session, each with what it wrote;
  * `step` -- any of them, with the stretch between two cuts: what was fed in it, and what was sent;
  * `Proper` -- what was sent of a stretch is the end of what was fed, from a keyframe on;
  * **`run_proper`** -- every stretch of every run is proper, and no picture outgrows its limit.
-/
import Ceres.Library.Run
import Ceres.Media.Timeline
import Ceres.Webrtc.ParameterSets

namespace Ceres.Webrtc.Sessions

open Ceres.Library Ceres.Media.Nal Ceres.Media.Remux

/-! ## 1. The picture -/

structure MediaPacket where
  isKey : Bool
  timing : PacketTiming
  data : List UInt8
deriving DecidableEq

/-- `PacketStream::GOP_BYTES` -/
def GOP_BYTES : Nat := 16 * 2 ^ 20

structure Picture where
  frames : List MediaPacket
  bytes : Nat
  limit : Nat
deriving DecidableEq

namespace Picture

def new (limit : Nat) : Picture := ⟨[], 0, limit⟩

def clear (picture : Picture) : Picture := ⟨[], 0, picture.limit⟩

def add (picture : Picture) (frame : MediaPacket) : Picture :=
  if picture.limit < picture.bytes + frame.data.length then picture.clear
  else ⟨picture.frames ++ [frame], picture.bytes + frame.data.length, picture.limit⟩

def hold (picture : Picture) (frame : MediaPacket) : Picture :=
  if frame.isKey then picture.clear.add frame
  else if picture.frames.isEmpty then picture
  else picture.add frame

end Picture

/-! ## 2. The session -/

structure OwnedTrack where
  codec : MediaCodec
  extradata : List UInt8
deriving DecidableEq

inductive PacketItem where
  | track (track : OwnedTrack)
  | packet (packet : MediaPacket)
  | notice

inductive FrameOrder where
  | unknown
  | display
  | reordered
deriving DecidableEq

structure Session where
  track : OwnedTrack
  connected : Bool
  pending : Picture
  awaitingKey : Bool
  dropping : Bool
deriving DecidableEq

/-- One write to str0m: the packet it is of, and its bytes and time. -/
structure Sample where
  packet : MediaPacket
  data : List UInt8
  time : Int
deriving DecidableEq

namespace Session

def new (track : OwnedTrack) (dropping : Bool) : Session := ⟨track, false, .new GOP_BYTES, true, dropping⟩

/-- `taken` is whether there is a writer and it takes the sample. -/
def write (session : Session) (packet : MediaPacket) (taken : Bool) : Session × List Sample :=
  if session.awaitingKey && !packet.isKey then (session, [])
  else
    match packet.timing.pts with
    | none => (session, [])
    | some pts =>
      let data := withParameterSets packet.data session.track.extradata session.track.codec packet.isKey
      if taken then ({ session with awaitingKey := false }, [⟨packet, data, max pts 0⟩]) else (session, [])

/-- The loop that writes what was held; `taken n` is for its `n`-th packet. -/
def writeAll (taken : Nat → Bool) : Nat → Session → List MediaPacket → Session × List Sample
  | _, session, [] => (session, [])
  | n, session, packet :: packets =>
    let first := session.write packet (taken n)
    let rest := writeAll taken (n + 1) first.1 packets
    (rest.1, first.2 ++ rest.2)

/-- The event `Connected` in `drive`. -/
def connect (session : Session) (taken : Nat → Bool) : Session × List Sample :=
  writeAll taken 0 { session with
    connected := true
    pending := session.pending.clear } session.pending.frames

def keeps (session : Session) (packet : MediaPacket) : Bool :=
  !(session.dropping && isUnreferenced packet.data session.track.codec)

/-- Takes one read of the source, `false` when it ended the session. `order` is what the stream tells of
    the frames it has read. -/
def feed (session : Session) (item : PacketItem) (order : FrameOrder) (taken : Bool) :
    Bool × Session × List Sample :=
  match item with
  | .track track =>
    if track.codec ≠ session.track.codec then (false, session, [])
    else
      (true, { session with
        track := track
        awaitingKey := true
        pending := session.pending.clear }, [])
  | .packet packet =>
    if !session.keeps packet then (true, session, [])
    else if order = .reordered then (false, session, [])
    else if session.connected then (true, session.write packet taken)
    else (true, { session with pending := session.pending.hold packet }, [])
  | .notice => (true, session, [])

/-- Writes nothing more until the source's next keyframe. -/
def skipToKey (session : Session) : Session :=
  { session with
    awaitingKey := true
    pending := session.pending.clear }

end Session

/-- The packets that `first_picture` holds of the items it reads after the first track. -/
def firstPicture (dropping : Bool) : OwnedTrack → Picture → List PacketItem → Picture
  | _, picture, [] => picture
  | _, picture, .track next :: items => firstPicture dropping next picture.clear items
  | track, picture, .packet packet :: items =>
    firstPicture dropping track
      (if dropping && isUnreferenced packet.data track.codec then picture else picture.hold packet) items
  | track, picture, .notice :: items => firstPicture dropping track picture items

/-! ## 3. Any order of events -/

inductive Action where
  | feed (item : PacketItem) (order : FrameOrder) (taken : Bool)
  | connect (taken : Nat → Bool)
  | skipToKey

/-- What happened since the start, a new track or a skip: the packets that were fed and kept, and what was
    sent. -/
structure Stretch where
  track : OwnedTrack
  fed : List MediaPacket
  sent : List Sample
deriving DecidableEq

structure World where
  session : Session
  earlier : List Stretch
  current : Stretch
  /-- A `feed` has ended the session, which is fed no more. -/
  ended : Bool
deriving DecidableEq

def World.start (track : OwnedTrack) (dropping : Bool) : World :=
  ⟨.new track dropping, [], ⟨track, [], []⟩, false⟩

/-- The stretch ends here, and the next begins. -/
def World.cut (world : World) (session : Session) : World :=
  { world with
    session := session
    earlier := world.earlier ++ [world.current]
    current := ⟨session.track, [], []⟩ }

/-- The stretch goes on with these packets and writes. -/
def World.goOn (world : World) (session : Session) (fed : List MediaPacket) (sent : List Sample) : World :=
  { world with
    session := session
    current := ⟨world.current.track, world.current.fed ++ fed, world.current.sent ++ sent⟩ }

def step (world : World) : Action → Option World
  | .feed item order taken =>
    if world.ended then none
    else
      let fed := world.session.feed item order taken
      if !fed.1 then some { world with ended := true }
      else
        match item with
        | .track _ => some (world.cut fed.2.1)
        | .packet packet =>
          some (world.goOn fed.2.1 (if world.session.keeps packet then [packet] else []) fed.2.2)
        | .notice => some (world.goOn fed.2.1 [] fed.2.2)
  | .connect taken =>
    let connected := world.session.connect taken
    some (world.goOn connected.1 [] connected.2)
  | .skipToKey => some (world.cut world.session.skipToKey)

/-- No packet, or a keyframe first. -/
def StartsWithKey (packets : List MediaPacket) : Prop := ∀ first ∈ packets.head?, first.isKey = true

/-- What was sent is the end of what was fed, from a keyframe on, with the track's parameter sets where
    they are missing. -/
structure Proper (stretch : Stretch) : Prop where
  gapless : stretch.sent.map Sample.packet <:+ stretch.fed
  key : StartsWithKey (stretch.sent.map Sample.packet)
  data : ∀ sample ∈ stretch.sent, sample.data =
    withParameterSets sample.packet.data stretch.track.extradata stretch.track.codec sample.packet.isKey

/-- The packet is one that a `PacketStream` yields: placed on its timeline. -/
def Yielded (packet : MediaPacket) : Prop :=
  ∃ (timeline next : Timeline) (timing : PacketTiming), timeline.place timing = some (packet.timing, next)

/-- Packets come from a `PacketStream`, and what is written is taken. -/
def Action.Succeeds : Action → Prop
  | .feed (.packet packet) _ taken => Yielded packet ∧ taken = true
  | .feed _ _ _ => True
  | .connect taken => ∀ n, taken n = true
  | .skipToKey => True

/-! ## 4. The picture's bytes -/

def size (frames : List MediaPacket) : Nat := (frames.map fun frame => frame.data.length).sum

structure Picture.Sound (picture : Picture) : Prop where
  bytes : picture.bytes = size picture.frames
  bounded : size picture.frames ≤ picture.limit
  key : StartsWithKey picture.frames

namespace Picture

theorem Sound.clear (picture : Picture) : picture.clear.Sound :=
  ⟨rfl, Nat.zero_le _, fun _ h => absurd h (Option.not_mem_none _)⟩

theorem size_snoc (frames : List MediaPacket) (frame : MediaPacket) :
    size (frames ++ [frame]) = size frames + frame.data.length := by
  unfold size
  rw [List.map_append, List.sum_append]
  rfl

theorem startsWithKey_snoc {frames : List MediaPacket} {frame : MediaPacket} (h : StartsWithKey frames)
    (hfirst : frames = [] → frame.isKey = true) : StartsWithKey (frames ++ [frame]) := by
  intro first hmem
  cases frames with
  | nil =>
    obtain rfl := Option.some.inj hmem
    exact hfirst rfl
  | cons head tail => exact h first hmem

theorem Sound.add {picture : Picture} (h : picture.Sound) (frame : MediaPacket)
    (hfirst : picture.frames = [] → frame.isKey = true) : (picture.add frame).Sound := by
  unfold Picture.add
  split
  · exact .clear picture
  · rename_i hfits
    refine ⟨?_, ?_, startsWithKey_snoc h.key hfirst⟩
    · rw [size_snoc, ← h.bytes]
    · rw [size_snoc, ← h.bytes]
      exact Nat.le_of_not_lt hfits

theorem Sound.hold {picture : Picture} (h : picture.Sound) (frame : MediaPacket) : (picture.hold frame).Sound := by
  unfold Picture.hold
  by_cases hkey : frame.isKey = true
  · rw [if_pos hkey]
    exact (Sound.clear picture).add frame fun _ => hkey
  · rw [if_neg hkey]
    by_cases hempty : picture.frames.isEmpty = true
    · rw [if_pos hempty]
      exact h
    · rw [if_neg hempty]
      exact h.add frame fun hnil => absurd (List.isEmpty_iff.mpr hnil) hempty

@[simp] theorem clear_limit (picture : Picture) : picture.clear.limit = picture.limit := rfl

theorem add_limit (picture : Picture) (frame : MediaPacket) : (picture.add frame).limit = picture.limit := by
  unfold add
  split <;> rfl

@[simp] theorem hold_limit (picture : Picture) (frame : MediaPacket) :
    (picture.hold frame).limit = picture.limit := by
  unfold hold
  split
  · exact add_limit _ _
  · split
    · rfl
    · exact add_limit _ _

/-- What is held is the end of what came. -/
theorem hold_suffix {picture : Picture} {fed : List MediaPacket} (h : picture.frames <:+ fed)
    (frame : MediaPacket) : (picture.hold frame).frames <:+ fed ++ [frame] := by
  have hadd : ∀ {other : Picture}, other.frames <:+ fed → (other.add frame).frames <:+ fed ++ [frame] := by
    intro other hother
    unfold add
    split
    · exact List.nil_suffix
    · obtain ⟨front, rfl⟩ := hother
      exact ⟨front, (List.append_assoc _ _ _).symm⟩
  unfold hold
  split
  · exact hadd List.nil_suffix
  · split
    · rename_i hempty
      rw [List.isEmpty_iff.mp hempty]
      exact List.nil_suffix
    · exact hadd h

end Picture

theorem firstPicture_sound (dropping : Bool) : ∀ (items : List PacketItem) (track : OwnedTrack)
    {picture : Picture}, picture.Sound → (firstPicture dropping track picture items).Sound ∧
        (firstPicture dropping track picture items).limit = picture.limit
  | [], _, _, h => ⟨h, rfl⟩
  | .track next :: items, _, picture, _ => firstPicture_sound dropping items next (Picture.Sound.clear picture)
  | .notice :: items, track, _, h => firstPicture_sound dropping items track h
  | .packet packet :: items, track, picture, h => by
      unfold firstPicture
      cases dropping && isUnreferenced packet.data track.codec with
      | true => exact firstPicture_sound dropping items track h
      | false =>
        obtain ⟨hsound, hlimit⟩ := firstPicture_sound dropping items track (h.hold packet)
        exact ⟨hsound, hlimit.trans (Picture.hold_limit picture packet)⟩

/-! ## 5. What is written -/

def sampleOf (track : OwnedTrack) (packet : MediaPacket) : Sample :=
  ⟨packet, withParameterSets packet.data track.extradata track.codec packet.isKey,
    max (packet.timing.pts.getD 0) 0⟩

theorem packets_of_samples (track : OwnedTrack) (packets : List MediaPacket) :
    (packets.map (sampleOf track)).map Sample.packet = packets := by
  rw [List.map_map]
  exact List.map_id packets

def Timed (packet : MediaPacket) : Prop := packet.timing.pts.isSome = true

theorem Yielded.timed {packet : MediaPacket} (h : Yielded packet) : Timed packet := by
  obtain ⟨timeline, next, timing, hplace⟩ := h
  have htiming : packet.timing = (timeline.exactly timing).1 := (Prod.ext_iff.mp (place_exactly hplace)).1
  unfold Timed
  rw [htiming]
  rfl

namespace Session

theorem write_waits {session : Session} {packet : MediaPacket} (hwaits : session.awaitingKey = true)
    (hkey : packet.isKey = false) (taken : Bool) : session.write packet taken = (session, []) := by
  unfold write
  rw [hwaits, hkey]
  rfl

theorem write_sends {session : Session} {packet : MediaPacket}
    (hsends : session.awaitingKey = true → packet.isKey = true) (htimed : Timed packet) :
    session.write packet true = ({ session with awaitingKey := false }, [sampleOf session.track packet]) := by
  obtain ⟨pts, hpts⟩ := Option.isSome_iff_exists.mp htimed
  have hnot : ¬ (session.awaitingKey && !packet.isKey) = true := by
    cases hwaits : session.awaitingKey with
    | false => exact Bool.false_ne_true
    | true =>
      rw [hsends hwaits]
      exact Bool.false_ne_true
  unfold write sampleOf
  rw [if_neg hnot, hpts]
  rfl

/-- From a keyframe on, the loop writes all that was held. -/
theorem writeAll_sends {taken : Nat → Bool} (htaken : ∀ n, taken n = true) :
    ∀ {packets : List MediaPacket} {session : Session} (n : Nat), packets ≠ [] →
      (∀ packet ∈ packets, Timed packet) → (session.awaitingKey = true → StartsWithKey packets) →
      writeAll taken n session packets =
        ({ session with awaitingKey := false }, packets.map (sampleOf session.track))
  | packet :: packets, session, n, _, htimed, hkey => by
      have hwrite := write_sends (fun hwaits => hkey hwaits packet rfl) (htimed packet List.mem_cons_self)
      unfold writeAll
      rw [htaken n, hwrite]
      cases packets with
      | nil => rfl
      | cons second packets =>
        have hawake : ({ session with awaitingKey := false } : Session).awaitingKey = true →
            StartsWithKey (second :: packets) := fun hwaits => absurd hwaits Bool.false_ne_true
        have hrest := writeAll_sends htaken (n + 1) (List.cons_ne_nil second packets)
          (fun other hother => htimed other (List.mem_cons_of_mem _ hother)) hawake
        dsimp only
        rw [hrest]
        rfl

theorem connect_empty {session : Session} (taken : Nat → Bool) (hempty : session.pending.frames = []) :
    session.connect taken = ({ session with connected := true, pending := session.pending.clear }, []) := by
  unfold connect
  rw [hempty]
  rfl

end Session

/-! ## 6. What every step keeps -/

structure Inv (world : World) : Prop where
  earlier : ∀ stretch ∈ world.earlier, Proper stretch
  current : Proper world.current
  track : world.current.track = world.session.track
  picture : world.session.pending.Sound
  limit : world.session.pending.limit = GOP_BYTES
  held : world.session.pending.frames <:+ world.current.fed
  timed : ∀ packet ∈ world.current.fed, Timed packet
  waits : world.session.awaitingKey = true → world.current.sent = []
  goes : world.session.awaitingKey = false → world.current.sent ≠ []
  before : world.session.connected = false → world.session.awaitingKey = true
  after : world.session.connected = true → world.session.pending.frames = []

theorem proper_empty (track : OwnedTrack) (fed : List MediaPacket) : Proper ⟨track, fed, []⟩ :=
  ⟨List.nil_suffix, fun _ h => absurd h (Option.not_mem_none _), fun _ h => absurd h List.not_mem_nil⟩

variable {world : World}

theorem Inv.proper (h : Inv world) : ∀ stretch ∈ world.earlier ++ [world.current], Proper stretch := by
  intro stretch hmem
  obtain hmem | hmem := List.mem_append.mp hmem
  · exact h.earlier stretch hmem
  · rw [List.mem_singleton.mp hmem]
    exact h.current

theorem inv_start (track : OwnedTrack) (dropping : Bool) : Inv (World.start track dropping) where
  earlier := fun _ h => absurd h List.not_mem_nil
  current := proper_empty track []
  track := rfl
  picture := ⟨rfl, Nat.zero_le _, fun _ h => absurd h (Option.not_mem_none _)⟩
  limit := rfl
  held := List.nil_suffix
  timed := fun _ h => absurd h List.not_mem_nil
  waits := fun _ => rfl
  goes := fun h => absurd h.symm Bool.false_ne_true
  before := fun _ => rfl
  after := fun h => absurd h Bool.false_ne_true

/-- A cut: the session waits for a keyframe and holds nothing. -/
theorem Inv.cut (h : Inv world) {session : Session} (hwaits : session.awaitingKey = true)
    (hpending : session.pending = world.session.pending.clear) : Inv (world.cut session) where
  earlier := h.proper
  current := proper_empty session.track []
  track := rfl
  picture := by
    show session.pending.Sound
    rw [hpending]
    exact .clear _
  limit := by
    show session.pending.limit = GOP_BYTES
    rw [hpending]
    exact h.limit
  held := by
    show session.pending.frames <:+ []
    rw [hpending]
    exact List.nil_suffix
  timed := fun _ hmem => absurd hmem List.not_mem_nil
  waits := fun _ => rfl
  goes := fun hgoes => absurd (hwaits.symm.trans hgoes).symm Bool.false_ne_true
  before := fun _ => hwaits
  after := fun _ => by
    show session.pending.frames = []
    rw [hpending]
    rfl

theorem World.goOn_nothing (world : World) : world.goOn world.session [] [] = world := by
  unfold World.goOn
  rw [List.append_nil, List.append_nil]

theorem Inv.hold (h : Inv world) (hconnected : world.session.connected = false) {packet : MediaPacket}
    (htimed : Timed packet) :
    Inv (world.goOn { world.session with pending := world.session.pending.hold packet } [packet] []) where
  earlier := h.earlier
  current := by
    have hsent : world.current.sent = [] := h.waits (h.before hconnected)
    unfold World.goOn
    rw [hsent]
    exact proper_empty _ _
  track := h.track
  picture := h.picture.hold packet
  limit := (Picture.hold_limit _ _).trans h.limit
  held := Picture.hold_suffix h.held packet
  timed := by
    intro other hother
    obtain hother | hother := List.mem_append.mp hother
    · exact h.timed other hother
    · rw [List.mem_singleton.mp hother]
      exact htimed
  waits := fun hwaits => (List.append_nil _).trans (h.waits hwaits)
  goes := fun hgoes => absurd ((h.before hconnected).symm.trans hgoes).symm Bool.false_ne_true
  before := h.before
  after := fun hafter => absurd (hconnected.symm.trans hafter) Bool.false_ne_true

/-- What is written next continues what was sent, or begins with a keyframe. -/
theorem Proper.more {stretch : Stretch} (h : Proper stretch) {fed : List MediaPacket} {track : OwnedTrack}
    (htrack : stretch.track = track) (hkey : stretch.sent = [] → StartsWithKey fed) :
    Proper ⟨stretch.track, stretch.fed ++ fed, stretch.sent ++ fed.map (sampleOf track)⟩ := by
  refine ⟨?_, ?_, ?_⟩
  · obtain ⟨front, hfront⟩ := h.gapless
    rw [List.map_append, packets_of_samples]
    exact ⟨front, by rw [← List.append_assoc, hfront]⟩
  · intro first hfirst
    rw [List.map_append, packets_of_samples] at hfirst
    cases hsent : stretch.sent with
    | nil =>
      rw [hsent] at hfirst
      exact hkey hsent first hfirst
    | cons sample sent =>
      rw [hsent] at hfirst
      exact h.key first (by rw [hsent]; exact hfirst)
  · intro sample hsample
    obtain hsample | hsample := List.mem_append.mp hsample
    · exact h.data sample hsample
    · obtain ⟨packet, _, rfl⟩ := List.mem_map.mp hsample
      rw [htrack]
      rfl

theorem Inv.write (h : Inv world) (hconnected : world.session.connected = true) {packet : MediaPacket}
    (htimed : Timed packet) :
    Inv (world.goOn (world.session.write packet true).1 [packet] (world.session.write packet true).2) := by
  have htimedAll : ∀ other ∈ world.current.fed ++ [packet], Timed other := by
    intro other hother
    obtain hother | hother := List.mem_append.mp hother
    · exact h.timed other hother
    · rw [List.mem_singleton.mp hother]
      exact htimed
  have hheld : world.session.pending.frames = [] := h.after hconnected
  by_cases hsends : world.session.awaitingKey = true → packet.isKey = true
  · rw [Session.write_sends hsends htimed]
    refine ⟨h.earlier, ?_, h.track, h.picture, h.limit, ?_, htimedAll, ?_, ?_, ?_, fun _ => hheld⟩
    · refine h.current.more h.track fun hnone first hfirst => ?_
      obtain rfl := Option.some.inj hfirst
      cases hwaits : world.session.awaitingKey with
      | true => exact hsends hwaits
      | false => exact absurd hnone (h.goes hwaits)
    · exact hheld ▸ List.nil_suffix
    · exact fun hwaits => absurd hwaits Bool.false_ne_true
    · exact fun _ => List.append_ne_nil_of_right_ne_nil _ (List.cons_ne_nil _ _)
    · exact fun hbefore => absurd (hbefore.symm.trans hconnected) Bool.false_ne_true
  · obtain ⟨hwaits, hkey⟩ := Classical.not_imp.mp hsends
    have hsent : world.current.sent = [] := h.waits hwaits
    rw [Session.write_waits hwaits (Bool.eq_false_iff.mpr hkey)]
    refine ⟨h.earlier, ?_, h.track, h.picture, h.limit, ?_, htimedAll, ?_, ?_, h.before, h.after⟩
    · unfold World.goOn
      rw [hsent]
      exact proper_empty _ _
    · exact hheld ▸ List.nil_suffix
    · exact fun _ => (List.append_nil _).trans hsent
    · exact fun hgoes => absurd (hwaits.symm.trans hgoes).symm Bool.false_ne_true

/-- The browser connects: what was held is written. -/
theorem Inv.connect (h : Inv world) {taken : Nat → Bool} (htaken : ∀ n, taken n = true) :
    Inv (world.goOn (world.session.connect taken).1 [] (world.session.connect taken).2) := by
  have hpicture : world.session.pending.clear.Sound := .clear _
  by_cases hempty : world.session.pending.frames = []
  · rw [Session.connect_empty taken hempty]
    refine ⟨h.earlier, ?_, h.track, hpicture, h.limit, List.nil_suffix, ?_, ?_, ?_, ?_, fun _ => rfl⟩
    · unfold World.goOn
      rw [List.append_nil, List.append_nil]
      exact h.current
    · intro packet hpacket
      rw [World.goOn, List.append_nil] at hpacket
      exact h.timed packet hpacket
    · exact fun hwaits => (List.append_nil _).trans (h.waits hwaits)
    · exact fun hgoes hnil => h.goes hgoes (List.append_eq_nil_iff.mp hnil).1
    · exact fun hbefore => absurd hbefore.symm Bool.false_ne_true
  · have hconnected : world.session.connected = false :=
      Bool.eq_false_iff.mpr fun hafter => hempty (h.after hafter)
    have hsent : world.current.sent = [] := h.waits (h.before hconnected)
    have htimed : ∀ packet ∈ world.session.pending.frames, Timed packet :=
      fun packet hpacket => h.timed packet (h.held.subset hpacket)
    unfold Session.connect
    rw [Session.writeAll_sends htaken 0 hempty htimed fun _ => h.picture.key]
    refine ⟨h.earlier, ?_, h.track, hpicture, h.limit, List.nil_suffix, ?_, ?_, ?_, ?_, fun _ => rfl⟩
    · unfold World.goOn
      rw [hsent, List.append_nil, List.nil_append]
      refine ⟨?_, ?_, ?_⟩
      · rw [packets_of_samples]
        exact h.held
      · rw [packets_of_samples]
        exact h.picture.key
      · intro sample hsample
        obtain ⟨packet, _, rfl⟩ := List.mem_map.mp hsample
        rw [h.track]
        rfl
    · intro packet hpacket
      rw [World.goOn, List.append_nil] at hpacket
      exact h.timed packet hpacket
    · exact fun hwaits => absurd hwaits Bool.false_ne_true
    · intro _
      rw [World.goOn, hsent, List.nil_append]
      exact fun hnil => hempty (List.map_eq_nil_iff.mp hnil)
    · exact fun hbefore => absurd hbefore.symm Bool.false_ne_true

theorem Inv.ended (h : Inv world) : Inv { world with ended := true } :=
  ⟨h.earlier, h.current, h.track, h.picture, h.limit, h.held, h.timed, h.waits, h.goes, h.before, h.after⟩

/-- What one read of the source does. -/
theorem feed_cases {world next : World} {item : PacketItem} {order : FrameOrder} {taken : Bool}
    (hstep : step world (.feed item order taken) = some next) :
    next = { world with ended := true } ∨ next = world ∨
      (∃ track, item = .track track ∧ next = world.cut { world.session with
          track := track, awaitingKey := true, pending := world.session.pending.clear }) ∨
      ∃ packet, item = .packet packet ∧ ((world.session.connected = true ∧
            next = world.goOn (world.session.write packet taken).1 [packet] (world.session.write packet taken).2) ∨
          (world.session.connected = false ∧
            next = world.goOn { world.session with pending := world.session.pending.hold packet } [packet] [])) := by
  unfold step at hstep
  by_cases hended : world.ended = true
  · simp only [hended, if_true] at hstep
    exact absurd hstep (Option.some_ne_none next).symm
  · simp only [hended, Bool.false_eq_true, if_false] at hstep
    cases item with
    | notice =>
      obtain rfl := Option.some.inj hstep
      exact .inr (.inl (World.goOn_nothing world))
    | track track =>
      unfold Session.feed at hstep
      by_cases hcodec : track.codec = world.session.track.codec
      · simp only [hcodec, ne_eq, not_true_eq_false, if_false, Bool.not_true, Bool.false_eq_true] at hstep
        obtain rfl := Option.some.inj hstep
        exact .inr (.inr (.inl ⟨track, rfl, rfl⟩))
      · simp only [hcodec, ne_eq, not_false_eq_true, if_true, Bool.not_false] at hstep
        obtain rfl := Option.some.inj hstep
        exact .inl rfl
    | packet packet =>
      unfold Session.feed at hstep
      cases hkeeps : world.session.keeps packet with
      | false =>
        simp only [hkeeps, Bool.not_false, if_true, Bool.not_true, Bool.false_eq_true, if_false] at hstep
        obtain rfl := Option.some.inj hstep
        exact .inr (.inl (World.goOn_nothing world))
      | true =>
        by_cases horder : order = .reordered
        · simp only [hkeeps, horder, Bool.not_true, Bool.false_eq_true, if_false, if_true, Bool.not_false] at hstep
          obtain rfl := Option.some.inj hstep
          exact .inl rfl
        · cases hconnected : world.session.connected with
          | true =>
            simp only [hkeeps, horder, hconnected, Bool.not_true, Bool.false_eq_true, if_false, if_true] at hstep
            obtain rfl := Option.some.inj hstep
            exact .inr (.inr (.inr ⟨packet, rfl, .inl ⟨rfl, rfl⟩⟩))
          | false =>
            simp only [hkeeps, horder, hconnected, Bool.not_true, Bool.false_eq_true, if_false, if_true] at hstep
            obtain rfl := Option.some.inj hstep
            exact .inr (.inr (.inr ⟨packet, rfl, .inr ⟨rfl, by simp only [hconnected]⟩⟩))

/-- **One step.** -/
theorem step_inv (world : World) (action : Action) (next : World) (h : Inv world) (hsucceeds : action.Succeeds)
    (hstep : step world action = some next) : Inv next := by
  cases action with
  | connect taken =>
    obtain rfl := Option.some.inj hstep
    exact h.connect hsucceeds
  | skipToKey =>
    obtain rfl := Option.some.inj hstep
    exact h.cut rfl rfl
  | feed item order taken =>
    obtain rfl | rfl | ⟨track, rfl, rfl⟩ | ⟨packet, rfl, hpacket⟩ := feed_cases hstep
    · exact h.ended
    · exact h
    · exact h.cut rfl rfl
    · obtain ⟨hyielded, rfl⟩ := hsucceeds
      obtain ⟨hconnected, rfl⟩ | ⟨hconnected, rfl⟩ := hpacket
      · exact h.write hconnected hyielded.timed
      · exact h.hold hconnected hyielded.timed

theorem along_succeeds : ∀ {actions : List Action}, (∀ action ∈ actions, action.Succeeds) → ∀ world : World,
    Along step (fun _ action => action.Succeeds) world actions
  | [], _, _ => trivial
  | action :: _, h, _ =>
    ⟨h action List.mem_cons_self, fun next _ =>
      along_succeeds (fun other hother => h other (List.mem_cons_of_mem _ hother)) next⟩

/-- **A browser is sent only decodable video.** In every run of feeds, connections and skips, with or without
    dropping, every stretch between two cuts was sent from a keyframe on to the end of what was kept of it;
    what is held stays within the limit, and so does what is read while the session is opened. -/
theorem run_proper (track : OwnedTrack) (dropping : Bool) (actions : List Action) (world : World)
    (hsucceeds : ∀ action ∈ actions, action.Succeeds)
    (hrun : Library.run step (World.start track dropping) actions = some world) :
    (∀ stretch ∈ world.earlier ++ [world.current],
        stretch.sent.map Sample.packet <:+ stretch.fed ∧ StartsWithKey (stretch.sent.map Sample.packet) ∧
          ∀ sample ∈ stretch.sent, sample.data = withParameterSets sample.packet.data stretch.track.extradata
            stretch.track.codec sample.packet.isKey) ∧
      (world.session.pending.frames.map fun frame => frame.data.length).sum ≤ GOP_BYTES ∧
      ∀ items, ((firstPicture dropping track (.new GOP_BYTES) items).frames.map
        fun frame => frame.data.length).sum ≤ GOP_BYTES := by
  have hinv : Inv world :=
    run_inv step_inv actions _ world (inv_start track dropping) (along_succeeds hsucceeds _) hrun
  refine ⟨fun stretch hmem => ?_, hinv.picture.bounded.trans hinv.limit.le, fun items => ?_⟩
  · obtain ⟨hgapless, hkey, hdata⟩ := hinv.proper stretch hmem
    exact ⟨hgapless, hkey, hdata⟩
  · have hnew : (Picture.new GOP_BYTES).Sound := Picture.Sound.clear (Picture.new GOP_BYTES)
    obtain ⟨hsound, hlimit⟩ := firstPicture_sound dropping items track hnew
    exact hsound.bounded.trans hlimit.le

/-- A track, its packets, and a second connection's: a delta, the keyframe, one that nothing references. -/
def sampleTrack : OwnedTrack := ⟨.H264, [0, 0, 1, 0x67, 1, 0, 0, 1, 0x68, 3]⟩

def samplePacket (isKey : Bool) (pts : Int) (header : UInt8) : MediaPacket :=
  ⟨isKey, ⟨some pts, some pts, 10⟩, [0, 0, 1, header, 9]⟩

def sampleActions : List Action :=
  [.feed (.packet (samplePacket false 0 0x41)) .display true, .feed (.packet (samplePacket true 10 0x65)) .display true,
    .feed (.packet (samplePacket false 20 0x01)) .display true, .connect fun _ => true,
    .feed (.packet (samplePacket false 30 0x41)) .display true, .skipToKey,
    .feed (.packet (samplePacket false 40 0x41)) .display true, .feed (.packet (samplePacket true 50 0x65)) .display true]

theorem sample_yielded {pts : Int} (hzero : 0 ≤ pts) (hsmall : pts < 1000) (isKey : Bool) (header : UInt8) :
    Yielded (samplePacket isKey pts header) := by
  refine ⟨⟨0, none, some 0⟩, ⟨max (max 0 (pts + 10)) (pts + 1), some pts, some 0⟩, ⟨some pts, some pts, 10⟩, ?_⟩
  have hinside : ∀ sum : Int, 0 ≤ sum → sum < 2000 → checked sum = some sum := by
    intro sum hlow hhigh
    exact if_pos ⟨by omega, by omega⟩
  have haim : Timeline.aim ⟨0, none, some 0⟩ ⟨some pts, some pts, 10⟩ = some ⟨some pts, pts, some 0⟩ := by
    simp [Timeline.aim, Timeline.shiftFor, moved, hinside pts hzero (by omega)]
  unfold Timeline.place
  rw [haim]
  simp [bump, samplePacket, hinside (pts + 10) (by omega) (by omega), hinside (pts + 1) (by omega) (by omega)]

theorem sample_sent :
    ∃ world, Library.run step (World.start sampleTrack true) sampleActions = some world ∧
      (world.earlier ++ [world.current]).map (fun stretch => stretch.sent.map fun sample => sample.time) =
        [[10, 30], [50]] ∧
      (∀ stretch ∈ world.earlier ++ [world.current],
        stretch.sent.map Sample.packet <:+ stretch.fed ∧ StartsWithKey (stretch.sent.map Sample.packet) ∧
          ∀ sample ∈ stretch.sent, sample.data = withParameterSets sample.packet.data stretch.track.extradata
            stretch.track.codec sample.packet.isKey) := by
  have hsucceeds : ∀ action ∈ sampleActions, action.Succeeds := by
    intro action haction
    simp only [sampleActions, List.mem_cons, List.not_mem_nil, or_false] at haction
    obtain rfl | rfl | rfl | rfl | rfl | rfl | rfl | rfl := haction
    · exact ⟨sample_yielded (by omega) (by omega) _ _, rfl⟩
    · exact ⟨sample_yielded (by omega) (by omega) _ _, rfl⟩
    · exact ⟨sample_yielded (by omega) (by omega) _ _, rfl⟩
    · exact fun _ => rfl
    · exact ⟨sample_yielded (by omega) (by omega) _ _, rfl⟩
    · trivial
    · exact ⟨sample_yielded (by omega) (by omega) _ _, rfl⟩
    · exact ⟨sample_yielded (by omega) (by omega) _ _, rfl⟩
  have hrun : (Library.run step (World.start sampleTrack true) sampleActions).isSome := by decide
  obtain ⟨world, hworld⟩ := Option.isSome_iff_exists.mp hrun
  refine ⟨world, hworld, ?_, (run_proper sampleTrack true sampleActions world hsucceeds hworld).1⟩
  have htimes : (Library.run step (World.start sampleTrack true) sampleActions).map (fun world =>
      (world.earlier ++ [world.current]).map fun stretch => stretch.sent.map fun sample => sample.time) =
        some [[10, 30], [50]] := by decide
  rw [hworld] at htimes
  exact Option.some.inj htimes

end Ceres.Webrtc.Sessions
