/-
  File:      Ceres/Webrtc/ParameterSets.lean
  Subject:   PARAMETER SETS IN FRONT OF A KEYFRAME (`rust/ceres-webrtc/src/parameter_sets.rs`).

  A browser that joins at a keyframe needs the track's parameter sets, so a keyframe without any gets them
  in front. They are taken for Annex B only where they begin with a start code of three or four bytes,
  while the units themselves may be padded with more zeros.

  * `withParameterSets` -- the bytes sent for a frame;
  * `Ready` -- they hold a sequence parameter set, and end with the frame's own units;
  * **`keyframe_ready_iff`** -- a keyframe is ready exactly when it has a set of its own, or the first start
    code of the track's is padded with at most one zero;
  * `padded_sets_left_out` -- a track whose first start code has five bytes.
-/
import Ceres.Media.Nal

namespace Ceres.Webrtc

open Ceres.Media.Nal

/-! ## 1. The bytes sent -/

/-- H.264 keeps the unit type in the low five bits, and H.265 in the six bits after the first. -/
def isSequenceParameterSet (codec : MediaCodec) (header : UInt8) : Bool :=
  match codec with
  | .H264 => header &&& 0x1f == 7
  | .H265 => (header >>> 1) &&& 0x3f == 33
  | .other => false

def carriesThem (codec : MediaCodec) (data : List UInt8) : Bool :=
  (NalUnits.all data).any fun unit => unit.head?.any (isSequenceParameterSet codec)

def annexB (extradata : List UInt8) : Bool :=
  [0, 0, 1].isPrefixOf extradata || [0, 0, 0, 1].isPrefixOf extradata

def withParameterSets (data extradata : List UInt8) (codec : MediaCodec) (key : Bool) : List UInt8 :=
  if !key || carriesThem codec data || !annexB extradata then data else extradata ++ data

/-! ## 2. A keyframe that can be decoded -/

def IsSet (codec : MediaCodec) (unit : List UInt8) : Prop :=
  ∃ header, unit.head? = some header ∧ isSequenceParameterSet codec header = true

/-- The bytes hold a sequence parameter set, and end with all units of the frame. -/
structure Ready (codec : MediaCodec) (frame sent : List UInt8) : Prop where
  parameterSet : ∃ unit ∈ unitsOf sent, IsSet codec unit
  whole : unitsOf frame <:+ unitsOf sent

theorem header_ne_zero {codec : MediaCodec} {header : UInt8} (h : isSequenceParameterSet codec header = true) :
    header ≠ 0 := by
  rintro rfl
  cases codec <;> exact absurd h (by decide)

theorem carriesThem_iff (codec : MediaCodec) (data : List UInt8) :
    carriesThem codec data = true ↔ ∃ unit ∈ unitsOf data, IsSet codec unit := by
  unfold carriesThem IsSet
  rw [NalUnits.all_eq, List.any_eq_true]
  refine exists_congr fun unit => and_congr_right fun _ => ?_
  exact Option.any_eq_true _ _

/-- Bytes in front and behind leave a sequence parameter set one. -/
theorem exists_set_of_within {codec : MediaCodec} {data sent : List UInt8} (hwithin : data <:+: sent)
    (h : ∃ unit ∈ unitsOf data, IsSet codec unit) : ∃ unit ∈ unitsOf sent, IsSet codec unit := by
  obtain ⟨unit, hunit, header, hhead, hset⟩ := h
  have hcode := (exists_unit_iff (header_ne_zero hset) data).mp ⟨unit, hunit, hhead⟩
  obtain ⟨unit', hunit', hhead'⟩ := (exists_unit_iff (header_ne_zero hset) sent).mpr (hcode.trans hwithin)
  exact ⟨unit', hunit', header, hhead', hset⟩

theorem annexB_joined_iff (zeros : Nat) (unit : List UInt8) (units : List (Nat × List UInt8)) (trailing : Nat) :
    annexB (joined ((zeros, unit) :: units) trailing) = true ↔ zeros ≤ 1 := by
  rw [joined_cons]
  match zeros with
  | 0 => exact ⟨fun _ => Nat.zero_le 1, fun _ => rfl⟩
  | 1 => exact ⟨fun _ => Nat.le_refl 1, fun _ => rfl⟩
  | zeros + 2 =>
    refine ⟨fun h => ?_, fun h => absurd h (by omega)⟩
    rw [List.replicate_succ, List.replicate_succ, List.cons_append, List.cons_append, zeros_shift] at h
    exact absurd h Bool.false_ne_true

theorem ready_iff {codec : MediaCodec} {units : List (Nat × List UInt8)} {trailing : Nat}
    (hunits : ∀ unit ∈ units, Enclosed unit.2) (hset : ∃ unit ∈ units, IsSet codec unit.2) (frame : List UInt8) :
    Ready codec frame (withParameterSets frame (joined units trailing) codec true) ↔
      (∃ unit ∈ unitsOf frame, IsSet codec unit) ∨ ∀ first ∈ units.head?, first.1 ≤ 1 := by
  by_cases hcarries : ∃ unit ∈ unitsOf frame, IsSet codec unit
  · have hsent : withParameterSets frame (joined units trailing) codec true = frame := by
      unfold withParameterSets
      rw [(carriesThem_iff codec frame).mpr hcarries]
      rfl
    rw [hsent]
    exact ⟨fun _ => .inl hcarries, fun _ => ⟨hcarries, List.suffix_refl _⟩⟩
  · have hfalse : carriesThem codec frame = false :=
      Bool.eq_false_iff.mpr fun h => hcarries ((carriesThem_iff codec frame).mp h)
    have hsent : withParameterSets frame (joined units trailing) codec true =
        if annexB (joined units trailing) then joined units trailing ++ frame else frame := by
      unfold withParameterSets
      rw [hfalse]
      cases annexB (joined units trailing) <;> rfl
    rw [hsent, or_iff_right hcarries]
    obtain ⟨known, hknown, hknownSet⟩ := hset
    match units with
    | [] => exact absurd hknown List.not_mem_nil
    | (zeros, first) :: rest =>
      have hhead : (∀ unit ∈ ((zeros, first) :: rest).head?, unit.1 ≤ 1) ↔ zeros ≤ 1 :=
        ⟨fun h => h _ rfl, fun h unit hunit => by obtain rfl := Option.some.inj hunit; exact h⟩
      rw [hhead, ← annexB_joined_iff zeros first rest trailing]
      have hinside : ∃ unit ∈ unitsOf (joined ((zeros, first) :: rest) trailing), IsSet codec unit := by
        rw [unitsOf_joined hunits trailing]
        exact ⟨known.2, List.mem_map_of_mem hknown, hknownSet⟩
      constructor
      · intro hready
        by_contra hnot
        rw [if_neg hnot] at hready
        exact hcarries hready.parameterSet
      · intro hannex
        rw [if_pos hannex]
        exact ⟨exists_set_of_within (List.prefix_append _ _).isInfix hinside, unitsOf_suffix frame _⟩

/-- **NAL units are split exactly**, the iteration ends on every byte string, and a keyframe is sent ready to
    decode exactly when it carries a sequence parameter set, or the first start code of the track's own is
    padded with at most one zero. -/
theorem keyframe_ready_iff (units : List (Nat × List UInt8)) (trailing : Nat)
    (hunits : ∀ unit ∈ units, Enclosed unit.2) :
    (∀ fuel, (joined units trailing).length < fuel →
        NalUnits.collect fuel (joined units trailing) = some (units.map Prod.snd)) ∧
      (∀ (data : List UInt8) (fuel : Nat), data.length < fuel → (NalUnits.collect fuel data).isSome) ∧
      ∀ codec frame, (∃ unit ∈ units, IsSet codec unit.2) →
        (Ready codec frame (withParameterSets frame (joined units trailing) codec true) ↔
          (∃ unit ∈ unitsOf frame, IsSet codec unit) ∨ ∀ first ∈ units.head?, first.1 ≤ 1) := by
  refine ⟨fun fuel hfuel => ?_, fun data fuel hfuel => ?_, fun codec frame hset => ready_iff hunits hset frame⟩
  · rw [NalUnits.collect_eq hfuel, unitsOf_joined hunits]
  · rw [NalUnits.collect_eq hfuel]
    rfl

/-- An H.264 track's own sets, behind start codes of four bytes and of three. -/
theorem track_sets_enclosed : ∀ unit ∈ [(1, [0x67, 1, 2]), (0, [0x68, 3])], Enclosed (unit : Nat × List UInt8).2 := by
  intro unit hunit
  obtain rfl | rfl : unit = (1, [0x67, 1, 2]) ∨ unit = (0, [0x68, 3]) := by simpa using hunit
  · exact ⟨by decide, by decide, by decide⟩
  · exact ⟨by decide, by decide, by decide⟩

theorem keyframe_gets_track_sets :
    (∀ fuel, (joined [(1, [0x67, 1, 2]), (0, [0x68, 3])] 2).length < fuel →
        NalUnits.collect fuel (joined [(1, [0x67, 1, 2]), (0, [0x68, 3])] 2) =
          some [[0x67, 1, 2], [0x68, 3]]) ∧
      Ready .H264 [0, 0, 0, 1, 0x65, 4, 5]
        (withParameterSets [0, 0, 0, 1, 0x65, 4, 5] (joined [(1, [0x67, 1, 2]), (0, [0x68, 3])] 2) .H264 true) := by
  obtain ⟨hsplit, _, hready⟩ := keyframe_ready_iff [(1, [0x67, 1, 2]), (0, [0x68, 3])] 2 track_sets_enclosed
  refine ⟨hsplit, (hready .H264 [0, 0, 0, 1, 0x65, 4, 5] ⟨_, List.mem_cons_self, 0x67, rfl, rfl⟩).mpr (.inr ?_)⟩
  intro first hfirst
  obtain rfl := Option.some.inj hfirst
  exact Nat.le_refl 1

/-- **The sets of a track whose first start code has five bytes are left out**, so a bare keyframe is sent
    without any. -/
theorem padded_sets_left_out :
    ¬ ∀ (units : List (Nat × List UInt8)) (trailing : Nat) (codec : MediaCodec) (frame : List UInt8),
      (∀ unit ∈ units, Enclosed unit.2) → (∃ unit ∈ units, IsSet codec unit.2) →
        Ready codec frame (withParameterSets frame (joined units trailing) codec true) := by
  intro h
  have hready := h [(2, [0x67, 1, 2])] 0 .H264 [0, 0, 0, 1, 0x65, 4, 5] ?_ ⟨_, List.mem_singleton_self _, 0x67, rfl, rfl⟩
  · have hsent : withParameterSets [0, 0, 0, 1, 0x65, 4, 5] (joined [(2, [0x67, 1, 2])] 0) .H264 true =
        [0, 0, 0, 1, 0x65, 4, 5] := by decide
    rw [hsent] at hready
    have hcarries := (carriesThem_iff .H264 _).mpr hready.parameterSet
    exact absurd hcarries (by decide)
  · intro unit hunit
    obtain rfl := List.mem_singleton.mp hunit
    exact ⟨by decide, by decide, by decide⟩

end Ceres.Webrtc
