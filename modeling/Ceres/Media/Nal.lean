/-
  File:      Ceres/Media/Nal.lean
  Subject:   NAL UNITS OF AN ANNEX B STRING (`rust/ceres-media/src/nal.rs`).

  H.264 and H.265 frames come as units behind start codes, `00 00 01`, with any zeros in front. The
  iterator searches for the next start code in what is left, takes what stands before the one after it,
  and leaves the zeros at its end away.

  * `startCode`, `NalUnits.next`, `NalUnits.collect` -- the search, the iterator's loop and the iteration,
    with fuel;
  * `isUnreferenced` -- whether a frame can be dropped;
  * `unitsOf` -- the units as such, one for each place where a start code stands;
  * **`collect_eq`** -- the iteration ends on every byte string, and gives the units;
  * `unitsOf_suffix`, `exists_unit_iff` -- bytes in front take no unit away, and a unit with a given header
    is a start code followed by it;
  * `unitsOf_joined` -- units behind start codes of any length are split exactly.
-/
import Mathlib.Data.List.DropRight
import Mathlib.Data.List.Infix

namespace Ceres.Media.Nal

inductive MediaCodec where
  | H264
  | H265
  | other
deriving DecidableEq

/-! ## 1. The iterator -/

def START : List UInt8 := [0, 0, 1]

/-- `data.windows(3).position(|window| window == [0, 0, 1])` -/
def startCode : List UInt8 → Option Nat
  | [] => none
  | byte :: rest => if START <+: byte :: rest then some 0 else (startCode rest).map (· + 1)

/-- The bytes up to the last that is not zero, which `rposition` finds. -/
def trimmed (bytes : List UInt8) : List UInt8 := bytes.rdropWhile (· == 0)

/-- What stands before the next start code. -/
def untilStart (rest : List UInt8) : List UInt8 := rest.take ((startCode rest).getD rest.length)

namespace NalUnits

/-- One turn of the loop in `next`: a unit, which may be empty, and what is left. -/
def turn (data : List UInt8) : Option (List UInt8 × List UInt8) :=
  (startCode data).map fun start =>
    let rest := data.drop (start + 3)
    (trimmed (untilStart rest), rest.drop ((startCode rest).getD rest.length))

/-- The loop of `next`; the outer `none` is its running out of fuel. -/
def next : Nat → List UInt8 → Option (Option (List UInt8 × List UInt8))
  | 0, _ => none
  | fuel + 1, data =>
    match turn data with
    | none => some none
    | some (unit, rest) => if unit.isEmpty then next fuel rest else some (some (unit, rest))

/-- All that the iterator yields. -/
def collect : Nat → List UInt8 → Option (List (List UInt8))
  | 0, _ => none
  | fuel + 1, data =>
    match next (fuel + 1) data with
    | none => none
    | some none => some []
    | some (some (unit, rest)) => (collect fuel rest).map (unit :: ·)

def all (data : List UInt8) : List (List UInt8) := (collect (data.length + 1) data).getD []

end NalUnits

/-- Whether a unit with this header is a slice, and if so whether nothing references it. -/
def unreferencedSlice (codec : MediaCodec) (header : UInt8) : Option Bool :=
  match codec with
  | .H264 =>
    if 1 ≤ header &&& 0x1f ∧ header &&& 0x1f ≤ 5 then some ((header >>> 5) &&& 0x3 == 0) else none
  | .H265 =>
    if (header >>> 1) &&& 0x3f ≤ 31 then
      some (decide ((header >>> 1) &&& 0x3f ≤ 14) && ((header >>> 1) &&& 0x3f) % 2 == 0)
    else none
  | .other => some false

/-- Whether no other frame references the access unit: it has slices, and each says so. -/
def isUnreferenced (data : List UInt8) (codec : MediaCodec) : Bool :=
  let slices := ((NalUnits.all data).filterMap List.head?).filterMap (unreferencedSlice codec)
  !slices.isEmpty && slices.all id

/-! ## 2. The units as such -/

/-- An empty unit is none. -/
def push (unit : List UInt8) (units : List (List UInt8)) : List (List UInt8) :=
  if unit.isEmpty then units else unit :: units

/-- A unit for each start code. -/
def unitsOf : List UInt8 → List (List UInt8)
  | [] => []
  | byte :: rest =>
    if START <+: byte :: rest then push (trimmed (untilStart (rest.drop 2))) (unitsOf rest) else unitsOf rest

theorem eq_of_start {data : List UInt8} (h : START <+: data) : ∃ rest, data = 0 :: 0 :: 1 :: rest := by
  obtain ⟨rest, rfl⟩ := h
  exact ⟨rest, rfl⟩

theorem start_leads (rest : List UInt8) : START <+: 0 :: 0 :: 1 :: rest := ⟨rest, rfl⟩

theorem not_start_of_ne {byte : UInt8} (h : byte ≠ 0) (rest : List UInt8) : ¬ START <+: byte :: rest :=
  fun hstart => h (List.cons_prefix_cons.mp hstart).1.symm

theorem unitsOf_skip {byte : UInt8} {rest : List UInt8} (h : ¬ START <+: byte :: rest) :
    unitsOf (byte :: rest) = unitsOf rest := if_neg h

theorem unitsOf_start (rest : List UInt8) :
    unitsOf (0 :: 0 :: 1 :: rest) = push (trimmed (untilStart rest)) (unitsOf rest) := by
  -- the code's own second and third bytes begin no other
  have hsecond : ¬ START <+: 0 :: 1 :: rest := fun h =>
    absurd (List.cons_prefix_cons.mp (List.cons_prefix_cons.mp h).2).1 (by decide)
  have hthird : ¬ START <+: 1 :: rest := not_start_of_ne (by decide) rest
  rw [unitsOf, if_pos (start_leads rest), unitsOf_skip hsecond, unitsOf_skip hthird]
  rfl

theorem startCode_none : ∀ {data : List UInt8}, startCode data = none → unitsOf data = []
  | [], _ => rfl
  | byte :: rest, h => by
      by_cases hstart : START <+: byte :: rest
      · rw [startCode, if_pos hstart] at h
        exact absurd h (Option.some_ne_none 0)
      · rw [startCode, if_neg hstart, Option.map_eq_none_iff] at h
        rw [unitsOf_skip hstart]
        exact startCode_none h

theorem startCode_some : ∀ {data : List UInt8} {start : Nat}, startCode data = some start →
    ∃ rest, data.drop start = 0 :: 0 :: 1 :: rest ∧ unitsOf data = unitsOf (data.drop start)
  | byte :: rest, start, h => by
      by_cases hstart : START <+: byte :: rest
      · rw [startCode, if_pos hstart] at h
        obtain rfl := Option.some.inj h
        obtain ⟨tail, htail⟩ := eq_of_start hstart
        exact ⟨tail, htail, rfl⟩
      · rw [startCode, if_neg hstart] at h
        obtain ⟨later, hlater, rfl⟩ := Option.map_eq_some_iff.mp h
        obtain ⟨tail, htail, hunits⟩ := startCode_some hlater
        exact ⟨tail, htail, (unitsOf_skip hstart).trans hunits⟩

namespace NalUnits

theorem turn_none {data : List UInt8} (h : turn data = none) : unitsOf data = [] :=
  startCode_none (Option.map_eq_none_iff.mp h)

theorem turn_some {data unit rest : List UInt8} (h : turn data = some (unit, rest)) :
    unitsOf data = push unit (unitsOf rest) ∧ rest.length < data.length := by
  obtain ⟨start, hstart, hturn⟩ := Option.map_eq_some_iff.mp h
  obtain ⟨tail, htail, hunits⟩ := startCode_some hstart
  have hdrop : data.drop (start + 3) = tail := by
    rw [← List.drop_drop, htail]
    rfl
  obtain ⟨rfl, rfl⟩ := Prod.ext_iff.mp hturn
  dsimp only
  rw [hdrop, hunits, htail, unitsOf_start]
  have hlength : data.length = start + (tail.length + 3) := by
    have hle : start ≤ data.length := by
      by_contra hgt
      rw [List.drop_eq_nil_of_le (by omega)] at htail
      exact absurd htail (List.cons_ne_nil _ _).symm
    have hcount := congrArg List.length htail
    rw [List.length_drop] at hcount
    simp only [List.length_cons] at hcount
    omega
  refine ⟨congrArg _ ?_, ?_⟩
  · cases hcode : startCode tail with
    | none =>
      rw [Option.getD_none, List.drop_length]
      exact startCode_none hcode
    | some stop =>
      obtain ⟨_, _, hsame⟩ := startCode_some hcode
      exact hsame
  · rw [List.length_drop]
    omega

/-- The loop ends: on nothing more, or on a unit and less than there was. -/
theorem next_spec : ∀ {fuel : Nat} {data : List UInt8}, data.length < fuel →
    (next fuel data = some none ∧ unitsOf data = []) ∨
      ∃ unit rest, next fuel data = some (some (unit, rest)) ∧ unitsOf data = unit :: unitsOf rest ∧
        rest.length < data.length
  | fuel + 1, data, hfuel => by
      cases hturn : turn data with
      | none =>
        refine .inl ⟨?_, turn_none hturn⟩
        unfold next
        rw [hturn]
      | some result =>
        obtain ⟨unit, rest⟩ := result
        obtain ⟨hunits, hshorter⟩ := turn_some hturn
        have hnext : next (fuel + 1) data = if unit.isEmpty then next fuel rest else some (some (unit, rest)) := by
          rw [next, hturn]
        rw [hnext, hunits]
        unfold push
        by_cases hempty : unit.isEmpty = true
        · rw [if_pos hempty, if_pos hempty]
          have hfuel' : rest.length < fuel := by omega
          obtain hdone | ⟨later, left, hlater, hlist, hleft⟩ := next_spec hfuel'
          · exact .inl hdone
          · exact .inr ⟨later, left, hlater, hlist, hleft.trans hshorter⟩
        · rw [if_neg hempty, if_neg hempty]
          exact .inr ⟨unit, rest, rfl, rfl, hshorter⟩

/-- **The iteration ends, with the units.** -/
theorem collect_eq : ∀ {fuel : Nat} {data : List UInt8}, data.length < fuel →
    collect fuel data = some (unitsOf data)
  | fuel + 1, data, hfuel => by
      obtain ⟨hnext, hunits⟩ | ⟨unit, rest, hnext, hunits, hshorter⟩ := next_spec hfuel
      · rw [collect, hnext, hunits]
      · rw [collect, hnext, hunits]
        dsimp only
        rw [collect_eq (by omega)]
        rfl

theorem all_eq (data : List UInt8) : all data = unitsOf data := by
  unfold all
  rw [collect_eq (Nat.lt_succ_self _)]
  rfl

end NalUnits

/-! ## 3. Bytes in front, and units with a given header -/

theorem suffix_push (unit : List UInt8) (units : List (List UInt8)) : units <:+ push unit units := by
  unfold push
  split
  · exact List.suffix_refl _
  · exact List.suffix_cons _ _

/-- **Bytes in front take no unit away.** -/
theorem unitsOf_suffix (data : List UInt8) : ∀ front : List UInt8, unitsOf data <:+ unitsOf (front ++ data)
  | [] => List.suffix_refl _
  | byte :: front => by
      refine (unitsOf_suffix data front).trans ?_
      rw [List.cons_append]
      by_cases hstart : START <+: byte :: (front ++ data)
      · rw [unitsOf, if_pos hstart]
        exact suffix_push _ _
      · rw [unitsOf_skip hstart]

theorem head_trimmed {header : UInt8} (hheader : header ≠ 0) (bytes : List UInt8) :
    (trimmed bytes).head? = some header ↔ bytes.head? = some header := by
  obtain ⟨zeros, hzeros⟩ : trimmed bytes <+: bytes := List.rdropWhile_prefix _ _
  constructor
  · intro h
    rw [← hzeros, List.head?_append, h]
    rfl
  · intro h
    cases htrimmed : trimmed bytes with
    | nil =>
      have hall := List.rdropWhile_eq_nil_iff.mp htrimmed header (List.mem_of_mem_head? h)
      exact absurd (beq_iff_eq.mp hall) hheader
    | cons first unit =>
      rw [htrimmed] at hzeros
      rw [← hzeros] at h
      exact h

theorem head_untilStart {header : UInt8} (hheader : header ≠ 0) (rest : List UInt8) :
    (untilStart rest).head? = some header ↔ rest.head? = some header := by
  unfold untilStart
  cases rest with
  | nil => rfl
  | cons first rest =>
    by_cases hstart : START <+: first :: rest
    · -- a start code at once leaves no bytes, and its own first is zero
      rw [startCode, if_pos hstart, Option.getD_some, List.take_zero]
      obtain rfl : 0 = first := (List.cons_prefix_cons.mp hstart).1
      exact ⟨fun h => absurd h (by simp), fun h => absurd (Option.some.inj h).symm hheader⟩
    · rw [startCode, if_neg hstart]
      cases startCode rest <;> rfl

theorem exists_mem_push {header : UInt8} {unit : List UInt8} {units : List (List UInt8)} :
    (∃ u ∈ push unit units, u.head? = some header) ↔
      unit.head? = some header ∨ ∃ u ∈ units, u.head? = some header := by
  unfold push
  cases unit with
  | nil => exact ⟨Or.inr, fun h => h.resolve_left (by simp)⟩
  | cons first rest => exact List.exists_mem_cons_iff ..

theorem exists_unit_iff {header : UInt8} (hheader : header ≠ 0) : ∀ data : List UInt8,
    (∃ unit ∈ unitsOf data, unit.head? = some header) ↔ START ++ [header] <:+: data
  | [] => by
      refine ⟨fun ⟨_, hmem, _⟩ => absurd hmem List.not_mem_nil, fun h => ?_⟩
      exact absurd (List.infix_nil.mp h) (List.cons_ne_nil _ _)
  | byte :: rest => by
      rw [List.infix_cons_iff]
      by_cases hstart : START <+: byte :: rest
      · rw [unitsOf, if_pos hstart, exists_mem_push, exists_unit_iff hheader rest, head_trimmed hheader,
          head_untilStart hheader]
        obtain ⟨tail, htail⟩ := eq_of_start hstart
        obtain ⟨rfl, rfl⟩ := List.cons.inj htail
        refine or_congr_left ?_
        show tail.head? = some header ↔ START ++ [header] <+: START ++ tail
        rw [List.prefix_append_right_inj]
        cases tail with
        | nil => exact ⟨fun h => absurd h (by simp), fun h => absurd (List.prefix_nil.mp h) (by simp)⟩
        | cons first tail =>
          rw [List.head?_cons, Option.some.injEq, List.cons_prefix_cons]
          exact ⟨fun h => ⟨h.symm, List.nil_prefix⟩, fun h => h.1.symm⟩
      · rw [unitsOf_skip hstart, exists_unit_iff hheader rest]
        refine ⟨Or.inr, fun h => h.resolve_left fun hcode => hstart ?_⟩
        exact (List.prefix_append _ _).trans hcode

/-! ## 4. Units behind start codes of any length -/

/-- A unit that can stand in an Annex B string: no start code in it, and no zero at its end. -/
structure Enclosed (unit : List UInt8) : Prop where
  nonempty : unit ≠ []
  clean : ¬ START <:+: unit
  last : unit.getLast? ≠ some 0

/-- Each unit behind so many zeros and a start code, and zeros at the end. -/
def joined (units : List (Nat × List UInt8)) (trailing : Nat) : List UInt8 :=
  units.flatMap (fun unit => List.replicate unit.1 0 ++ START ++ unit.2) ++ List.replicate trailing 0

theorem joined_cons (zeros : Nat) (unit : List UInt8) (units : List (Nat × List UInt8)) (trailing : Nat) :
    joined ((zeros, unit) :: units) trailing =
      List.replicate zeros 0 ++ (0 :: 0 :: 1 :: (unit ++ joined units trailing)) := by
  unfold joined START
  simp only [List.flatMap_cons, List.append_assoc, List.cons_append, List.nil_append]

/-- No start code lies across the end of such a unit. -/
theorem not_start_append {byte : UInt8} {rest : List UInt8} (hclean : ¬ START <:+: byte :: rest)
    (hlast : (byte :: rest).getLast? ≠ some 0) (tail : List UInt8) : ¬ START <+: byte :: (rest ++ tail) := by
  intro hstart
  obtain ⟨after, hafter⟩ := eq_of_start hstart
  match rest with
  | [] =>
    obtain ⟨rfl, _⟩ := List.cons.inj hafter
    exact hlast rfl
  | [second] =>
    obtain ⟨_, hrest⟩ := List.cons.inj hafter
    obtain ⟨rfl, _⟩ := List.cons.inj hrest
    exact hlast rfl
  | second :: third :: more =>
    obtain ⟨hfirst, hrest⟩ := List.cons.inj hafter
    obtain ⟨hsecond, hmore⟩ := List.cons.inj hrest
    obtain ⟨hthird, _⟩ := List.cons.inj hmore
    rw [hfirst, hsecond, hthird] at hclean
    exact hclean (start_leads more).isInfix

theorem pass_unit : ∀ {unit : List UInt8}, ¬ START <:+: unit → unit.getLast? ≠ some 0 → ∀ tail : List UInt8,
    startCode (unit ++ tail) = (startCode tail).map (· + unit.length) ∧ unitsOf (unit ++ tail) = unitsOf tail
  | [], _, _, tail => ⟨by cases h : startCode tail <;> simp [h], rfl⟩
  | byte :: rest, hclean, hlast, tail => by
      have hnot := not_start_append hclean hlast tail
      have hrest : rest.getLast? ≠ some 0 := by
        cases rest with
        | nil => exact (Option.some_ne_none 0).symm
        | cons second more => rwa [List.getLast?_cons_cons] at hlast
      obtain ⟨hcode, hunits⟩ := pass_unit (fun h => hclean (h.trans (List.suffix_cons _ _).isInfix)) hrest tail
      refine ⟨?_, (unitsOf_skip hnot).trans hunits⟩
      rw [List.cons_append, startCode, if_neg hnot, hcode, Option.map_map]
      rfl

theorem startCode_zeros : ∀ n : Nat, startCode (List.replicate n 0) = none
  | 0 => rfl
  | n + 1 => by
      have hnot : ¬ START <+: List.replicate (n + 1) 0 := fun h =>
        absurd (List.eq_of_mem_replicate (h.subset (by decide : (1 : UInt8) ∈ START))) (by decide)
      rw [List.replicate_succ] at hnot ⊢
      rw [startCode, if_neg hnot, startCode_zeros n]
      rfl

theorem zeros_shift (n : Nat) (rest : List UInt8) :
    List.replicate n 0 ++ (0 :: 0 :: rest) = 0 :: 0 :: (List.replicate n 0 ++ rest) := by
  induction n with
  | zero => rfl
  | succ n ih => rw [List.replicate_succ, List.cons_append, ih, List.cons_append]

theorem startCode_padded : ∀ (n : Nat) (rest : List UInt8),
    startCode (List.replicate n 0 ++ (0 :: 0 :: 1 :: rest)) = some n
  | 0, rest => if_pos (start_leads rest)
  | n + 1, rest => by
      have hnot : ¬ START <+: 0 :: (List.replicate n 0 ++ (0 :: 0 :: 1 :: rest)) := by
        rw [zeros_shift]
        exact fun h => absurd (List.cons_prefix_cons.mp (List.cons_prefix_cons.mp (List.cons_prefix_cons.mp h).2).2).1
          (by decide)
      rw [List.replicate_succ, List.cons_append, startCode, if_neg hnot, startCode_padded n rest]
      rfl

/-- Only zeros come before the next start code. -/
theorem untilStart_joined (units : List (Nat × List UInt8)) (trailing : Nat) :
    ∃ n, untilStart (joined units trailing) = List.replicate n 0 := by
  unfold untilStart
  cases units with
  | nil =>
    refine ⟨trailing, ?_⟩
    show List.take _ (List.replicate trailing 0) = _
    rw [show joined [] trailing = List.replicate trailing 0 from rfl, startCode_zeros, Option.getD_none,
      List.take_length]
  | cons unit units =>
    obtain ⟨zeros, unit⟩ := unit
    refine ⟨zeros, ?_⟩
    rw [joined_cons, startCode_padded, Option.getD_some]
    exact List.take_left' List.length_replicate

theorem trimmed_zeros {unit : List UInt8} (hlast : unit.getLast? ≠ some 0) : ∀ n : Nat,
    trimmed (unit ++ List.replicate n 0) = unit
  | 0 => by
      rw [List.replicate_zero, List.append_nil]
      refine List.rdropWhile_eq_self_iff.mpr fun hne hzero => hlast ?_
      rw [List.getLast?_eq_some_getLast hne, beq_iff_eq.mp hzero]
  | n + 1 => by
      rw [List.replicate_succ', ← List.append_assoc]
      exact (List.rdropWhile_concat_pos _ _ _ rfl).trans (trimmed_zeros hlast n)

theorem untilStart_append {unit : List UInt8} (h : Enclosed unit) (tail : List UInt8) :
    untilStart (unit ++ tail) = unit ++ untilStart tail := by
  unfold untilStart
  rw [(pass_unit h.clean h.last tail).1]
  cases startCode tail with
  | none =>
    rw [Option.map_none, Option.getD_none, Option.getD_none, List.take_length, List.take_length]
  | some stop =>
    rw [Option.map_some, Option.getD_some, Option.getD_some, Nat.add_comm, List.take_length_add_append]

/-- **Units are split exactly.** -/
theorem unitsOf_joined : ∀ {units : List (Nat × List UInt8)}, (∀ unit ∈ units, Enclosed unit.2) →
    ∀ trailing : Nat, unitsOf (joined units trailing) = units.map Prod.snd
  | [], _, trailing => startCode_none (startCode_zeros trailing)
  | (zeros, unit) :: units, h, trailing => by
      have hunit : Enclosed unit := h _ List.mem_cons_self
      obtain ⟨_, _, hpadded⟩ := startCode_some (startCode_padded zeros (unit ++ joined units trailing))
      obtain ⟨n, hzeros⟩ := untilStart_joined units trailing
      rw [joined_cons, hpadded, List.drop_left' List.length_replicate, unitsOf_start, untilStart_append hunit,
        hzeros, trimmed_zeros hunit.last, (pass_unit hunit.clean hunit.last _).2,
        unitsOf_joined (fun other hother => h other (List.mem_cons_of_mem _ hother)) trailing]
      unfold push
      rw [if_neg (by rw [List.isEmpty_iff]; exact hunit.nonempty)]
      rfl

end Ceres.Media.Nal
