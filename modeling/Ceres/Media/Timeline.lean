/-
  File:      Ceres/Media/Timeline.lean
  Subject:   ONE TIMELINE ACROSS RECONNECTS (`rust/ceres-media/src/remux/timeline.rs`).

  A reader that reconnects goes on writing one output track. `Timeline` puts each connection's packets
  behind those of the connection before, and the muxer takes them as long as every decode time is after
  the one before.

  * `place`, `reconnect` -- the two methods, with every `i64` sum checked: `none` where one overflows;
  * `exactly` -- the same without the checks, which `place` is where it answers (`place_exactly`);
  * `run` -- any sequence of the two, and what came of it as a list of `Event`s;
  * **`run_ordered`** -- decode times increase, no frame is shown before it is decoded, a new connection
    starts past everything shown before, and a connection in order is moved as a whole.
-/
import Mathlib.Tactic

namespace Ceres.Media.Remux

/-! ## 1. The timeline -/

structure PacketTiming where
  pts : Option Int
  dts : Option Int
  duration : Int
deriving DecidableEq

structure Timeline where
  /-- `end` in the source: past every placed packet's presentation. -/
  endsAt : Int
  lastDts : Option Int
  shift : Option Int
deriving DecidableEq

def Timeline.default : Timeline := ⟨0, none, none⟩

/-- The result of an `i64` sum, if it is one. -/
def checked (sum : Int) : Option Int := if -2 ^ 63 ≤ sum ∧ sum < 2 ^ 63 then some sum else none

/-- Starts a new connection, whose first packet lands at the current end. -/
def Timeline.reconnect (timeline : Timeline) : Timeline := { timeline with shift := none }

/-- `shift.get_or_insert(end - source)` -/
def Timeline.shiftFor (timeline : Timeline) (source : Int) : Option Int :=
  match timeline.shift with
  | some shift => some shift
  | none => checked (timeline.endsAt - source)

/-- `pts.map(|pts| pts + shift)` -/
def moved (shift : Int) : Option Int → Option (Option Int)
  | some pts => (checked (pts + shift)).map some
  | none => some none

/-- Where a packet's own times would put it, and the connection's shift from then on. -/
structure Aimed where
  pts : Option Int
  dts : Int
  shift : Option Int

def Timeline.aim (timeline : Timeline) (timing : PacketTiming) : Option Aimed :=
  match timing.dts.or timing.pts with
  | some source => do
    let shift ← timeline.shiftFor source
    let pts ← moved shift timing.pts
    let dts ← checked (source + shift)
    return ⟨pts, dts, some shift⟩
  | none =>
    match timeline.shift, timeline.lastDts with
    | some shift, some last => do
      let dts ← checked (last + max timing.duration 1)
      return ⟨none, dts, some shift⟩
    | shift, _ => some ⟨none, timeline.endsAt, shift⟩

/-- The muxer rejects a decode timestamp that does not increase. -/
def bump (lastDts : Option Int) (dts : Int) : Option Int :=
  match lastDts with
  | some last => if dts ≤ last then checked (last + 1) else some dts
  | none => some dts

def Timeline.place (timeline : Timeline) (timing : PacketTiming) : Option (PacketTiming × Timeline) := do
  let aimed ← timeline.aim timing
  let dts ← bump timeline.lastDts aimed.dts
  let pts := (aimed.pts.map fun pts => max pts dts).getD dts
  let shown ← checked (pts + max timing.duration 0)
  let next ← checked (dts + 1)
  return (⟨some pts, some dts, timing.duration⟩, ⟨max (max timeline.endsAt shown) next, some dts, aimed.shift⟩)

/-! ## 2. Without the checks -/

theorem eq_of_checked {sum n : Int} (h : checked sum = some n) : n = sum := by
  unfold checked at h
  split at h
  · exact (Option.some.inj h).symm
  · exact absurd h (Option.some_ne_none n).symm

theorem eq_of_moved {shift : Int} {pts moved' : Option Int} (h : moved shift pts = some moved') :
    moved' = pts.map (· + shift) := by
  cases pts with
  | none => exact (Option.some.inj h).symm
  | some own =>
    obtain ⟨sum, hsum, rfl⟩ := Option.map_eq_some_iff.mp h
    obtain rfl := eq_of_checked hsum
    rfl

/-- The shift a connection's packet with the time `source` is moved by. -/
def Timeline.shiftOf (timeline : Timeline) (source : Int) : Int :=
  timeline.shift.getD (timeline.endsAt - source)

theorem eq_of_shiftFor {timeline : Timeline} {source shift : Int} (h : timeline.shiftFor source = some shift) :
    shift = timeline.shiftOf source := by
  unfold Timeline.shiftFor at h
  unfold Timeline.shiftOf
  cases hat : timeline.shift with
  | none =>
    rw [hat] at h
    exact eq_of_checked h
  | some known =>
    rw [hat] at h
    exact (Option.some.inj h).symm

def Timeline.aimExactly (timeline : Timeline) (timing : PacketTiming) : Aimed :=
  match timing.dts.or timing.pts with
  | some source =>
    ⟨timing.pts.map (· + timeline.shiftOf source), source + timeline.shiftOf source,
      some (timeline.shiftOf source)⟩
  | none =>
    match timeline.shift, timeline.lastDts with
    | some shift, some last => ⟨none, last + max timing.duration 1, some shift⟩
    | shift, _ => ⟨none, timeline.endsAt, shift⟩

def bumpExactly (lastDts : Option Int) (dts : Int) : Int :=
  match lastDts with
  | some last => if dts ≤ last then last + 1 else dts
  | none => dts

/-- The decode and presentation times a packet is placed at. -/
def Timeline.dtsOf (timeline : Timeline) (timing : PacketTiming) : Int :=
  bumpExactly timeline.lastDts (timeline.aimExactly timing).dts

def Timeline.ptsOf (timeline : Timeline) (timing : PacketTiming) : Int :=
  ((timeline.aimExactly timing).pts.map fun pts => max pts (timeline.dtsOf timing)).getD (timeline.dtsOf timing)

/-- The placed packet, and the timeline's state after it. -/
def Timeline.exactly (timeline : Timeline) (timing : PacketTiming) : PacketTiming × Timeline :=
  (⟨some (timeline.ptsOf timing), some (timeline.dtsOf timing), timing.duration⟩,
    ⟨max (max timeline.endsAt (timeline.ptsOf timing + max timing.duration 0)) (timeline.dtsOf timing + 1),
      some (timeline.dtsOf timing), (timeline.aimExactly timing).shift⟩)

theorem aim_exactly {timeline : Timeline} {timing : PacketTiming} {aimed : Aimed}
    (h : timeline.aim timing = some aimed) : aimed = timeline.aimExactly timing := by
  unfold Timeline.aim at h
  unfold Timeline.aimExactly
  cases hsource : timing.dts.or timing.pts with
  | none =>
    rw [hsource] at h
    cases hshift : timeline.shift with
    | none =>
      rw [hshift] at h
      exact (Option.some.inj h).symm
    | some shift =>
      cases hlast : timeline.lastDts with
      | none =>
        rw [hshift, hlast] at h
        exact (Option.some.inj h).symm
      | some last =>
        rw [hshift, hlast] at h
        obtain ⟨dts, hdts, h⟩ := Option.bind_eq_some_iff.mp h
        obtain rfl := eq_of_checked hdts
        exact (Option.some.inj h).symm
  | some source =>
    rw [hsource] at h
    obtain ⟨shift, hshift, h⟩ := Option.bind_eq_some_iff.mp h
    obtain ⟨pts, hpts, h⟩ := Option.bind_eq_some_iff.mp h
    obtain ⟨dts, hdts, h⟩ := Option.bind_eq_some_iff.mp h
    obtain rfl := eq_of_shiftFor hshift
    obtain rfl := eq_of_moved hpts
    obtain rfl := eq_of_checked hdts
    exact (Option.some.inj h).symm

theorem bump_exactly {lastDts : Option Int} {dts bumped : Int} (h : bump lastDts dts = some bumped) :
    bumped = bumpExactly lastDts dts := by
  cases lastDts with
  | none => exact (Option.some.inj h).symm
  | some last =>
    unfold bump at h
    unfold bumpExactly
    simp only at h ⊢
    by_cases hle : dts ≤ last
    · rw [if_pos hle] at h ⊢
      exact eq_of_checked h
    · rw [if_neg hle] at h ⊢
      exact (Option.some.inj h).symm

/-- Where no sum overflows, `place` is the exact computation. -/
theorem place_exactly {timeline : Timeline} {timing : PacketTiming} {result : PacketTiming × Timeline}
    (h : timeline.place timing = some result) : result = timeline.exactly timing := by
  obtain ⟨aimed, haimed, h⟩ := Option.bind_eq_some_iff.mp h
  obtain ⟨dts, hdts, h⟩ := Option.bind_eq_some_iff.mp h
  obtain ⟨shown, hshown, h⟩ := Option.bind_eq_some_iff.mp h
  obtain ⟨next, hnext, h⟩ := Option.bind_eq_some_iff.mp h
  obtain rfl := aim_exactly haimed
  obtain rfl := bump_exactly hdts
  obtain rfl := eq_of_checked hshown
  obtain rfl := eq_of_checked hnext
  exact (Option.some.inj h).symm

/-! ## 3. What one packet does -/

/-- The end is past the last decode time. -/
def Timeline.Sound (timeline : Timeline) : Prop := ∀ last ∈ timeline.lastDts, last < timeline.endsAt

theorem Timeline.sound_default : Timeline.default.Sound := fun _ hlast => absurd hlast (Option.not_mem_none _)

theorem Timeline.Sound.exactly (timeline : Timeline) (timing : PacketTiming) :
    (timeline.exactly timing).2.Sound := by
  intro last hlast
  obtain rfl := Option.some.inj hlast
  exact lt_of_lt_of_le (Int.lt_succ _) (le_max_right _ _)

theorem lt_bumpExactly {lastDts : Option Int} {last : Int} (h : last ∈ lastDts) (dts : Int) :
    last < bumpExactly lastDts dts := by
  obtain rfl := Option.mem_def.mp h
  unfold bumpExactly
  simp only
  split
  · exact Int.lt_succ last
  · omega

theorem bumpExactly_of_lt {lastDts : Option Int} {dts : Int} (h : ∀ last ∈ lastDts, last < dts) :
    bumpExactly lastDts dts = dts := by
  cases lastDts with
  | none => rfl
  | some last => exact if_neg (not_le.mpr (h last rfl))

theorem Timeline.dtsOf_le_ptsOf (timeline : Timeline) (timing : PacketTiming) :
    timeline.dtsOf timing ≤ timeline.ptsOf timing := by
  unfold Timeline.ptsOf
  cases (timeline.aimExactly timing).pts with
  | none => exact le_rfl
  | some pts => exact le_max_right _ _

theorem Timeline.endsAt_le (timeline : Timeline) (timing : PacketTiming) :
    timeline.endsAt ≤ (timeline.exactly timing).2.endsAt :=
  le_trans (le_max_left _ _) (le_max_left _ _)

theorem Timeline.shown_le (timeline : Timeline) (timing : PacketTiming) :
    timeline.ptsOf timing + max timing.duration 0 ≤ (timeline.exactly timing).2.endsAt :=
  le_trans (le_max_right _ _) (le_max_left _ _)

theorem Timeline.Sound.dtsOf_first {timeline : Timeline} (hsound : timeline.Sound) (hshift : timeline.shift = none)
    (timing : PacketTiming) : timeline.dtsOf timing = timeline.endsAt := by
  have haimed : (timeline.aimExactly timing).dts = timeline.endsAt := by
    unfold Timeline.aimExactly Timeline.shiftOf
    rw [hshift]
    cases timing.dts.or timing.pts with
    | none => rfl
    | some source =>
      show source + (timeline.endsAt - source) = timeline.endsAt
      omega
  unfold Timeline.dtsOf
  rw [haimed]
  exact bumpExactly_of_lt hsound

theorem Timeline.exactly_moved {timeline : Timeline} {timing : PacketTiming} {pts dts shift : Int}
    (hpts : timing.pts = some pts) (hdts : timing.dts = some dts) (hle : dts ≤ pts)
    (hshift : timeline.shiftOf dts = shift) (hlast : ∀ last ∈ timeline.lastDts, last < dts + shift) :
    timeline.dtsOf timing = dts + shift ∧ timeline.ptsOf timing = pts + shift ∧
      (timeline.exactly timing).2.shift = some shift := by
  have haimed : timeline.aimExactly timing = ⟨some (pts + shift), dts + shift, some shift⟩ := by
    unfold Timeline.aimExactly
    rw [hdts, Option.some_or, hpts]
    simp only [hshift, Option.map_some]
  have hdtsOf : timeline.dtsOf timing = dts + shift := by
    unfold Timeline.dtsOf
    rw [haimed]
    exact bumpExactly_of_lt hlast
  refine ⟨hdtsOf, ?_, ?_⟩
  · unfold Timeline.ptsOf
    rw [haimed, hdtsOf]
    exact max_eq_left (by omega)
  · show (timeline.aimExactly timing).shift = some shift
    rw [haimed]

/-! ## 4. Any sequence of calls -/

inductive Call where
  | reconnect
  | place (timing : PacketTiming)

inductive Event where
  | reconnected
  | placed (source out : PacketTiming)
deriving DecidableEq

/-- What came of each call, and the timeline after them; `none` where a sum overflows. -/
def Timeline.run : Timeline → List Call → Option (List Event × Timeline)
  | timeline, [] => some ([], timeline)
  | timeline, .reconnect :: calls => do
    let (events, after) ← timeline.reconnect.run calls
    return (.reconnected :: events, after)
  | timeline, .place timing :: calls => do
    let (placed, next) ← timeline.place timing
    let (events, after) ← next.run calls
    return (.placed timing placed :: events, after)

def Event.dts : Event → Option Int
  | .reconnected => none
  | .placed _ out => out.dts

def Event.source : Event → Option PacketTiming
  | .reconnected => none
  | .placed source _ => some source

/-- The packets of a connection all carry a decode time, which increases, and are shown no earlier. -/
def Regular (timings : List PacketTiming) : Prop :=
  (∀ timing ∈ timings, ∃ pts dts, timing.pts = some pts ∧ timing.dts = some dts ∧ dts ≤ pts) ∧
    (timings.filterMap PacketTiming.dts).Pairwise (· < ·)

/-- The cases of a run, one for each call. -/
inductive Ran : Timeline → List Event → Timeline → Prop where
  | done (timeline : Timeline) : Ran timeline [] timeline
  | reconnect {timeline after : Timeline} {events : List Event} (rest : Ran timeline.reconnect events after) :
      Ran timeline (.reconnected :: events) after
  | place {timeline after : Timeline} {events : List Event} (timing : PacketTiming)
      (rest : Ran (timeline.exactly timing).2 events after) :
      Ran timeline (.placed timing (timeline.exactly timing).1 :: events) after

theorem ran_of_run : ∀ {calls : List Call} {timeline after : Timeline} {events : List Event},
    timeline.run calls = some (events, after) → Ran timeline events after
  | [], timeline, after, events, h => by
      obtain ⟨rfl, rfl⟩ := Prod.ext_iff.mp (Option.some.inj h)
      exact .done timeline
  | .reconnect :: calls, timeline, after, events, h => by
      obtain ⟨⟨rest, last⟩, hrest, h⟩ := Option.bind_eq_some_iff.mp h
      obtain ⟨rfl, rfl⟩ := Prod.ext_iff.mp (Option.some.inj h)
      exact .reconnect (ran_of_run hrest)
  | .place timing :: calls, timeline, after, events, h => by
      obtain ⟨⟨placed, next⟩, hplace, h⟩ := Option.bind_eq_some_iff.mp h
      obtain ⟨⟨rest, last⟩, hrest, h⟩ := Option.bind_eq_some_iff.mp h
      obtain ⟨rfl, rfl⟩ := Prod.ext_iff.mp (Option.some.inj h)
      obtain ⟨rfl, rfl⟩ := Prod.ext_iff.mp (place_exactly hplace)
      exact .place timing (ran_of_run hrest)

theorem Ran.split : ∀ {front back : List Event} {timeline after : Timeline},
    Ran timeline (front ++ back) after → ∃ between, Ran timeline front between ∧ Ran between back after
  | [], _, timeline, _, h => ⟨timeline, .done timeline, h⟩
  | _ :: front, back, timeline, after, h => by
      cases h with
      | reconnect rest =>
        obtain ⟨between, hfront, hback⟩ := rest.split
        exact ⟨between, .reconnect hfront, hback⟩
      | place timing rest =>
        obtain ⟨between, hfront, hback⟩ := rest.split
        exact ⟨between, .place timing hfront, hback⟩

variable {timeline after : Timeline} {events : List Event}

theorem Ran.sound (h : Ran timeline events after) (hsound : timeline.Sound) : after.Sound := by
  induction h with
  | done => exact hsound
  | reconnect rest ih => exact ih hsound
  | @place timeline after events timing rest ih => exact ih (Timeline.Sound.exactly timeline timing)

theorem decoded_placed (timeline : Timeline) (timing : PacketTiming) (events : List Event) :
    (Event.placed timing (timeline.exactly timing).1 :: events).filterMap Event.dts =
      timeline.dtsOf timing :: events.filterMap Event.dts := rfl

/-- Every placed decode time is after the last one before the run, and they increase. -/
theorem Ran.increasing (h : Ran timeline events after) :
    (∀ last ∈ timeline.lastDts, ∀ dts ∈ events.filterMap Event.dts, last < dts) ∧
      (events.filterMap Event.dts).Pairwise (· < ·) := by
  induction h with
  | done => exact ⟨fun _ _ _ hdts => absurd hdts List.not_mem_nil, List.Pairwise.nil⟩
  | reconnect rest ih =>
    rw [List.filterMap_cons_none rfl]
    exact ih
  | @place timeline after events timing rest ih =>
    obtain ⟨hlater, hpairwise⟩ := ih
    have hnext : ∀ dts ∈ events.filterMap Event.dts, timeline.dtsOf timing < dts := hlater _ rfl
    rw [decoded_placed]
    refine ⟨fun last hlast dts hdts => ?_, List.pairwise_cons.mpr ⟨hnext, hpairwise⟩⟩
    have hlt : last < timeline.dtsOf timing := lt_bumpExactly hlast _
    obtain rfl | hdts := List.mem_cons.mp hdts
    · exact hlt
    · exact hlt.trans (hnext dts hdts)

theorem Ran.shown_after_decoded (h : Ran timeline events after) {source placed : PacketTiming}
    (hplaced : .placed source placed ∈ events) :
    ∃ pts dts, placed.pts = some pts ∧ placed.dts = some dts ∧ dts ≤ pts := by
  induction h with
  | done => exact absurd hplaced List.not_mem_nil
  | reconnect rest ih =>
    obtain heq | hplaced := List.mem_cons.mp hplaced
    · exact absurd heq Event.noConfusion
    · exact ih hplaced
  | @place timeline after events timing rest ih =>
    obtain heq | hplaced := List.mem_cons.mp hplaced
    · obtain ⟨rfl, rfl⟩ := Event.placed.inj heq
      exact ⟨_, _, rfl, rfl, timeline.dtsOf_le_ptsOf source⟩
    · exact ih hplaced

theorem Ran.shown_by_end (h : Ran timeline events after) :
    timeline.endsAt ≤ after.endsAt ∧ ∀ {source placed : PacketTiming}, .placed source placed ∈ events →
      ∀ pts ∈ placed.pts, pts ≤ after.endsAt ∧ pts + placed.duration ≤ after.endsAt := by
  induction h with
  | done => exact ⟨le_rfl, fun hplaced => absurd hplaced List.not_mem_nil⟩
  | reconnect rest ih =>
    refine ⟨ih.1, fun hplaced => ?_⟩
    obtain heq | hplaced := List.mem_cons.mp hplaced
    · exact absurd heq Event.noConfusion
    · exact ih.2 hplaced
  | @place timeline after events timing rest ih =>
    refine ⟨(timeline.endsAt_le timing).trans ih.1, fun {source placed} hplaced pts hpts => ?_⟩
    obtain heq | hplaced := List.mem_cons.mp hplaced
    · obtain ⟨rfl, rfl⟩ := Event.placed.inj heq
      obtain rfl := Option.some.inj hpts
      have hend := (timeline.shown_le _).trans ih.1
      have hduration := le_max_left source.duration 0
      have hzero := le_max_right source.duration 0
      refine ⟨by omega, ?_⟩
      show timeline.ptsOf source + source.duration ≤ after.endsAt
      omega
    · exact ih.2 hplaced pts hpts

theorem sources_placed (timeline : Timeline) (timing : PacketTiming) (events : List Event) :
    (Event.placed timing (timeline.exactly timing).1 :: events).filterMap Event.source =
      timing :: events.filterMap Event.source := rfl

theorem Ran.shifted (h : Ran timeline events after) {shift : Int} (hwhole : .reconnected ∉ events)
    (hregular : Regular (events.filterMap Event.source))
    (hshift : ∀ first ∈ (events.filterMap Event.source).head?, ∀ dts ∈ first.dts, timeline.shiftOf dts = shift)
    (hlast : ∀ last ∈ timeline.lastDts, ∀ timing ∈ events.filterMap Event.source, ∀ dts ∈ timing.dts,
      last < dts + shift) : ∀ {source placed : PacketTiming}, .placed source placed ∈ events →
      placed.pts = source.pts.map (· + shift) ∧ placed.dts = source.dts.map (· + shift) := by
  induction h with
  | done => exact fun hplaced => absurd hplaced List.not_mem_nil
  | reconnect rest ih => exact absurd List.mem_cons_self hwhole
  | @place timeline after events timing rest ih =>
    rw [sources_placed] at hregular hshift hlast
    obtain ⟨hwell, hincreasing⟩ := hregular
    obtain ⟨pts, dts, hpts, hdts, hle⟩ := hwell timing List.mem_cons_self
    rw [List.filterMap_cons_some hdts] at hincreasing
    obtain ⟨hbefore, hincreasing⟩ := List.pairwise_cons.mp hincreasing
    obtain ⟨hdtsOf, hptsOf, hnext⟩ := Timeline.exactly_moved hpts hdts hle (hshift timing rfl dts hdts)
      fun last hlast' => hlast last hlast' timing List.mem_cons_self dts hdts
    intro source placed hplaced
    obtain heq | hplaced := List.mem_cons.mp hplaced
    · obtain ⟨rfl, rfl⟩ := Event.placed.inj heq
      rw [hpts, hdts]
      exact ⟨congrArg some hptsOf, congrArg some hdtsOf⟩
    · refine ih (fun hmem => hwhole (List.mem_cons_of_mem _ hmem))
        ⟨fun other hother => hwell other (List.mem_cons_of_mem _ hother), hincreasing⟩ ?_ ?_ hplaced
      · intro first _ dts' _
        unfold Timeline.shiftOf
        rw [hnext]
        rfl
      · intro last hlast' other hother dts' hdts'
        obtain rfl := Option.some.inj hlast'
        have hlt := hbefore dts' (List.mem_filterMap.mpr ⟨other, hother, hdts'⟩)
        rw [hdtsOf]
        omega

theorem Ran.moved (h : Ran timeline events after) (hsound : timeline.Sound) (hshift : timeline.shift = none)
    (hwhole : .reconnected ∉ events) (hregular : Regular (events.filterMap Event.source)) :
    ∃ shift, ∀ {source placed : PacketTiming}, .placed source placed ∈ events →
      placed.pts = source.pts.map (· + shift) ∧ placed.dts = source.dts.map (· + shift) := by
  cases h with
  | done => exact ⟨0, fun hplaced => absurd hplaced List.not_mem_nil⟩
  | reconnect rest => exact absurd List.mem_cons_self hwhole
  | place timing rest =>
    have hran := Ran.place timing rest
    rw [sources_placed] at hregular
    obtain ⟨pts, dts, hpts, hdts, hle⟩ := hregular.1 timing List.mem_cons_self
    refine ⟨timeline.endsAt - dts, hran.shifted hwhole hregular ?_ ?_⟩
    · intro first hfirst dts' hdts'
      obtain rfl := Option.some.inj hfirst
      obtain rfl := Option.some.inj (hdts.symm.trans hdts')
      unfold Timeline.shiftOf
      rw [hshift]
      rfl
    · intro last hlast other hother dts' hdts'
      have hlt := hsound last hlast
      have hincreasing := hregular.2
      rw [List.filterMap_cons_some hdts] at hincreasing
      -- the first packet's decode time is the least of the connection
      have hleast : dts ≤ dts' := by
        obtain rfl | hother := List.mem_cons.mp hother
        · exact (Option.some.inj (hdts.symm.trans hdts')).le
        · exact ((List.pairwise_cons.mp hincreasing).1 dts'
            (List.mem_filterMap.mpr ⟨other, hother, hdts'⟩)).le
      omega

theorem Ran.shift_at_start {after : Timeline} {front : List Event} (h : Ran .default front after)
    (hstart : front = [] ∨ front.getLast? = some .reconnected) : after.shift = none := by
  obtain rfl | hlast := hstart
  · cases h
    rfl
  · obtain ⟨init, rfl⟩ := List.getLast?_eq_some_iff.mp hlast
    obtain ⟨between, _, hreconnect⟩ := h.split
    cases hreconnect with
    | reconnect rest =>
      cases rest
      rfl

/-! ## 5. The muxer's demands -/

/-- **One timeline.** Over any reconnects and packets whose sums stay in range: the decode times
    increase; a packet has both its times and is shown no earlier than it is decoded; the first packet of a
    new connection is decoded when all that was shown before is over; and a regular connection is moved by
    one constant. -/
theorem run_ordered (calls : List Call) (events : List Event) (after : Timeline)
    (hrun : Timeline.default.run calls = some (events, after)) :
    (events.filterMap Event.dts).Pairwise (· < ·) ∧
      (∀ source placed, .placed source placed ∈ events →
        ∃ pts dts, placed.pts = some pts ∧ placed.dts = some dts ∧ dts ≤ pts) ∧
      (∀ earlier source first later,
        events = earlier ++ .reconnected :: .placed source first :: later →
          ∃ dts, first.dts = some dts ∧ ∀ source' placed, .placed source' placed ∈ earlier →
            ∀ pts ∈ placed.pts, pts ≤ dts ∧ pts + placed.duration ≤ dts) ∧
      (∀ earlier connection later, events = earlier ++ connection ++ later →
        (earlier = [] ∨ earlier.getLast? = some .reconnected) → .reconnected ∉ connection →
        Regular (connection.filterMap Event.source) →
          ∃ shift, ∀ source placed, .placed source placed ∈ connection →
            placed.pts = source.pts.map (· + shift) ∧ placed.dts = source.dts.map (· + shift)) := by
  have hran : Ran .default events after := ran_of_run hrun
  refine ⟨hran.increasing.2, fun source placed => hran.shown_after_decoded, ?_, ?_⟩
  · rintro earlier source first later rfl
    obtain ⟨between, hearlier, hlater⟩ := hran.split
    have hsound : between.Sound := hearlier.sound Timeline.sound_default
    cases hlater with
    | reconnect rest =>
      cases rest with
      | place timing rest =>
        have hsound : between.reconnect.Sound := hsound
        have hfirst : between.reconnect.dtsOf source = between.endsAt := hsound.dtsOf_first rfl source
        refine ⟨between.endsAt, congrArg some hfirst, fun source' placed hplaced => ?_⟩
        exact hearlier.shown_by_end.2 hplaced
  · rintro earlier connection later rfl hstart hwhole hregular
    rw [List.append_assoc] at hran
    obtain ⟨between, hearlier, hrest⟩ := hran.split
    obtain ⟨atEnd, hconnection, _⟩ := hrest.split
    obtain ⟨shift, hshift⟩ := hconnection.moved (hearlier.sound Timeline.sound_default)
      (hearlier.shift_at_start hstart) hwhole hregular
    exact ⟨shift, fun source placed => hshift⟩

/-- An untimed keyframe, a repeated decode time and a late frame, and then a second connection. -/
def sampleCalls : List Call :=
  [.reconnect, .place ⟨none, none, 10⟩, .place ⟨some 1020, some 1000, 10⟩, .place ⟨some 1010, some 1000, 10⟩,
    .reconnect, .place ⟨some 500, some 500, 10⟩, .place ⟨some 530, some 510, 10⟩]

def sampleEvents : List Event :=
  [.reconnected, .placed ⟨none, none, 10⟩ ⟨some 0, some 0, 10⟩,
    .placed ⟨some 1020, some 1000, 10⟩ ⟨some 30, some 10, 10⟩,
    .placed ⟨some 1010, some 1000, 10⟩ ⟨some 20, some 11, 10⟩,
    .reconnected, .placed ⟨some 500, some 500, 10⟩ ⟨some 40, some 40, 10⟩,
    .placed ⟨some 530, some 510, 10⟩ ⟨some 70, some 50, 10⟩]

theorem sample_run : Timeline.default.run sampleCalls = some (sampleEvents, ⟨80, some 50, some (-460)⟩) := by
  decide

theorem sample_decoded_in_order : (sampleEvents.filterMap Event.dts).Pairwise (· < ·) :=
  (run_ordered sampleCalls sampleEvents _ sample_run).1

end Ceres.Media.Remux
