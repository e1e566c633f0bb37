/-
  File:      Ceres/Media/FrameOrder.lean
  Subject:   THE ORDER OF A TRACK'S FRAMES (`rust/ceres-media/src/remux/order.rs`).

  A player that shows frames as they arrive needs a track whose frames arrive in display order. The
  order is told from the packets alone, as far as they tell it.

  * `observe`, `order` -- the methods of `FrameOrderCheck`, with the checked sums of the timeline;
  * `stepsBack`, `rises` -- what the presentation times of a track say;
  * **`order_of_packets`** -- after every run of packets the order is the one that their times say.
-/
import Mathlib.Data.List.DropRight
import Ceres.Media.Timeline

namespace Ceres.Media.Remux

/-! ## 1. The check -/

inductive FrameOrder
  | unknown
  | display
  | reordered
  deriving DecidableEq

structure FrameOrderCheck where
  previous : Option Int := none
  keyed : Bool := false
  inOrder : Nat := 0
  reordered : Bool := false
  deriving DecidableEq

namespace FrameOrderCheck

def MAX_REORDER : Int := 90000

def IN_ORDER_PACKETS : Nat := 2

/-- The presentation time is counted; `none` where a difference or the count overflows. -/
def time (check : FrameOrderCheck) (pts : Int) (key : Bool) : Option FrameOrderCheck := do
  let stepBack ← check.previous.elim (some 0) fun previous => checked (previous - pts)
  if 0 < stepBack ∧ stepBack < MAX_REORDER then
    return { check with reordered := true, previous := some pts }
  else if key = false ∧ check.keyed = true ∧ check.previous.isSome ∧ stepBack < 0 then
    if check.inOrder + 1 < 2 ^ 32 then
      return { check with inOrder := check.inOrder + 1, previous := some pts }
    else none
  else return { check with previous := some pts }

/-- A keyframe counts even untimed. -/
def observe (check : FrameOrderCheck) (packet : Option Int × Bool) : Option FrameOrderCheck :=
  let check := if packet.2 then { check with keyed := true, inOrder := 0 } else check
  match packet.1 with
  | none => some check
  | some pts => check.time pts packet.2

def order (check : FrameOrderCheck) : FrameOrder :=
  if check.reordered then .reordered
  else if check.keyed && decide (IN_ORDER_PACKETS ≤ check.inOrder) then .display
  else .unknown

end FrameOrderCheck

/-! ## 2. What the times say -/

/-- The second of two frames shows before the first, by less than a second. -/
def isBack (p q : Int) : Bool := decide (0 < p - q ∧ p - q < 90000)

def isLater (p q : Int) : Bool := decide (p < q)

/-- A frame shows less than a second before the one that was sent ahead of it. -/
def stepsBack : List Int → Bool
  | p :: q :: times => isBack p q || stepsBack (q :: times)
  | _ => false

/-- The frames that show after the one sent ahead of them. -/
def rises : List Int → Nat
  | p :: q :: times => (if isLater p q then 1 else 0) + rises (q :: times)
  | _ => 0

theorem stepsBack_snoc (q : Int) : ∀ times : List Int, stepsBack (times ++ [q]) =
    (stepsBack times || times.getLast?.any (isBack · q))
  | [] => rfl
  | [p] => by simp [stepsBack]
  | p :: p' :: times => by
      have hrest := stepsBack_snoc q (p' :: times)
      rw [List.cons_append, List.cons_append] at *
      rw [stepsBack, hrest, stepsBack, Bool.or_assoc, List.getLast?_cons_cons]

theorem rises_snoc (q : Int) : ∀ times : List Int,
    rises (times ++ [q]) = rises times + if times.getLast?.any (isLater · q) then 1 else 0
  | [] => rfl
  | [p] => (Nat.zero_add _).symm
  | p :: p' :: times => by
      have hrest := rises_snoc q (p' :: times)
      rw [List.cons_append, List.cons_append] at *
      rw [rises, hrest, rises, Nat.add_assoc, List.getLast?_cons_cons]

abbrev Packets : Type := List (Option Int × Bool)

def timesOf (packets : Packets) : List Int := packets.filterMap Prod.fst

/-- The packets up to the last keyframe; none before the first keyframe. -/
def upToKey (packets : Packets) : Packets := packets.rdropWhile fun packet => !packet.2

/-- The times since the last keyframe, behind the last one up to it. -/
def timesSinceKey (packets : Packets) : List Int :=
  (timesOf (upToKey packets)).getLast?.toList ++ timesOf (packets.rtakeWhile fun packet => !packet.2)

def orderOf (packets : Packets) : FrameOrder :=
  if stepsBack (timesOf packets) then .reordered
  else if upToKey packets ≠ [] ∧ 2 ≤ rises (timesSinceKey packets) then .display
  else .unknown

/-! ## 3. The check finds it -/

structure FrameOrderCheck.Tells (check : FrameOrderCheck) (packets : Packets) : Prop where
  previous : check.previous = (timesOf packets).getLast?
  keyed : check.keyed = decide (upToKey packets ≠ [])
  inOrder : check.inOrder = if upToKey packets = [] then 0 else rises (timesSinceKey packets)
  reordered : check.reordered = stepsBack (timesOf packets)

theorem timesOf_snoc (packets : Packets) (packet : Option Int × Bool) :
    timesOf (packets ++ [packet]) = timesOf packets ++ packet.1.toList := by
  cases hpts : packet.1 <;> simp [timesOf, hpts]

theorem upToKey_snoc (packets : Packets) (packet : Option Int × Bool) :
    upToKey (packets ++ [packet]) = if packet.2 then packets ++ [packet] else upToKey packets := by
  rw [upToKey, List.rdropWhile_concat]
  cases packet.2 <;> rfl

theorem timesSinceKey_snoc (packets : Packets) (packet : Option Int × Bool) :
    timesSinceKey (packets ++ [packet]) = if packet.2 then (timesOf (packets ++ [packet])).getLast?.toList
      else timesSinceKey packets ++ packet.1.toList := by
  rw [timesSinceKey, upToKey_snoc, List.rtakeWhile_concat]
  cases hkey : packet.2 with
  | true => simp [timesOf]
  | false => simp [timesSinceKey, timesOf_snoc]

theorem getLast?_timesSinceKey (packets : Packets) :
    (timesSinceKey packets).getLast? = (timesOf packets).getLast? := by
  have hsplit : upToKey packets ++ packets.rtakeWhile (fun packet => !packet.2) = packets :=
    (List.reverse_append ..).symm.trans ((congrArg List.reverse List.takeWhile_append_dropWhile).trans packets.reverse_reverse)
  have htimes : timesOf packets = timesOf (upToKey packets) ++ timesOf (packets.rtakeWhile fun packet => !packet.2) := by
    rw [timesOf, timesOf, timesOf, ← List.filterMap_append, hsplit]
  rw [htimes, timesSinceKey, List.getLast?_append, List.getLast?_append]
  cases (timesOf (upToKey packets)).getLast? <;> rfl

theorem rises_getLast? (times : List Int) : rises times.getLast?.toList = 0 := by
  cases times.getLast? <;> rfl

variable {packets : Packets} {check next : FrameOrderCheck} {pts : Int} {key : Bool}

/-- A packet without a time, which can only begin a new count. -/
theorem FrameOrderCheck.Tells.untimed (h : check.Tells packets) (key : Bool) :
    (if key then { check with keyed := true, inOrder := 0 } else check).Tells (packets ++ [(none, key)]) := by
  have htimes : timesOf (packets ++ [(none, key)]) = timesOf packets :=
    (timesOf_snoc packets (none, key)).trans (List.append_nil _)
  cases key with
  | true =>
    have hkeyed : upToKey (packets ++ [(none, true)]) ≠ [] := by
      rw [upToKey_snoc]
      exact List.concat_ne_nil _ _
    refine ⟨htimes ▸ h.previous, (decide_eq_true hkeyed).symm, ?_, htimes ▸ h.reordered⟩
    rw [if_neg hkeyed, timesSinceKey_snoc]
    exact (rises_getLast? _).symm
  | false =>
    have hkeyed : upToKey (packets ++ [(none, false)]) = upToKey packets := upToKey_snoc packets (none, false)
    have hsince : timesSinceKey (packets ++ [(none, false)]) = timesSinceKey packets :=
      (timesSinceKey_snoc packets (none, false)).trans (List.append_nil _)
    exact ⟨htimes ▸ h.previous, hkeyed ▸ h.keyed, by rw [hkeyed, hsince]; exact h.inOrder, htimes ▸ h.reordered⟩

theorem FrameOrderCheck.time_spec (htime : check.time pts key = some next) : next = { check with
    previous := some pts, reordered := check.reordered || check.previous.any (isBack · pts)
    inOrder := check.inOrder + if !key && check.keyed && check.previous.any (isLater · pts) then 1 else 0 } := by
  obtain ⟨previous, keyed, inOrder, reordered⟩ := check
  obtain ⟨stepBack, hstepBack, h⟩ := Option.bind_eq_some_iff.mp htime
  clear htime
  cases previous with
  | none =>
    obtain rfl := Option.some.inj hstepBack
    simpa [eq_comm] using h
  | some p =>
    obtain rfl : stepBack = p - pts := eq_of_checked hstepBack
    split at h
    · rename_i hback
      obtain rfl := Option.some.inj h
      have hnot : isLater p pts = false := decide_eq_false (by omega)
      simp [show isBack p pts = true from decide_eq_true hback, hnot]
    · rename_i hback
      have hsame : isBack p pts = false := decide_eq_false hback
      split at h
      · rename_i hcounts
        obtain ⟨rfl, hkeyed, -, hlater⟩ := hcounts
        obtain ⟨-, h⟩ := Option.ite_none_right_eq_some.mp h
        obtain rfl := Option.some.inj h
        have hlater : isLater p pts = true := decide_eq_true (by omega)
        simp [hsame, show keyed = true from hkeyed, hlater]
      · rename_i hstays
        obtain rfl := Option.some.inj h
        have hnone : (!key && keyed && isLater p pts) = false := by
          by_contra hall
          simp only [Bool.not_eq_false, Bool.and_eq_true, Bool.not_eq_true', isLater, decide_eq_true_eq] at hall
          exact hstays ⟨hall.1.1, hall.1.2, rfl, by omega⟩
        simp [hsame, hnone]

theorem FrameOrderCheck.Tells.timed (h : check.Tells (packets ++ [(none, key)]))
    (hnext : check.time pts key = some next) : next.Tells (packets ++ [(some pts, key)]) := by
  obtain rfl := FrameOrderCheck.time_spec hnext
  obtain ⟨hprevious, hkeyed, hcount, hreordered⟩ := h
  simp only [timesOf_snoc, upToKey_snoc, timesSinceKey_snoc, Option.toList_none, List.append_nil] at hprevious hkeyed hcount hreordered
  refine ⟨?_, ?_, ?_, ?_⟩
  · simp [timesOf_snoc]
  · rw [upToKey_snoc]
    cases key <;> simpa using hkeyed
  · cases key with
    | true =>
      have hzero : check.inOrder = 0 := by simpa [rises_getLast?] using hcount
      simp [upToKey_snoc, timesSinceKey_snoc, timesOf_snoc, rises, hzero]
    | false =>
      by_cases hnone : upToKey packets = []
      · simp_all [upToKey_snoc]
      · simp_all [upToKey_snoc, timesSinceKey_snoc, rises_snoc, getLast?_timesSinceKey]
  · rw [timesOf_snoc]
    exact ((stepsBack_snoc pts _).trans (by rw [hreordered, hprevious])).symm

theorem tells_of_run : ∀ {packets : Packets} {check : FrameOrderCheck},
    packets.foldlM FrameOrderCheck.observe {} = some check → check.Tells packets := by
  intro packets
  induction packets using List.reverseRecOn with
  | nil =>
    rintro check h
    obtain rfl := Option.some.inj h
    exact ⟨rfl, rfl, rfl, rfl⟩
  | append_singleton packets packet ih =>
    intro check h
    rw [List.foldlM_append] at h
    obtain ⟨before, hbefore, h⟩ := Option.bind_eq_some_iff.mp h
    rw [List.foldlM_cons] at h
    obtain ⟨after, hobserve, hlast⟩ := Option.bind_eq_some_iff.mp h
    obtain rfl := Option.some.inj hlast
    have hreset := (ih hbefore).untimed packet.2
    obtain ⟨pts, key⟩ := packet
    cases pts with
    | none => exact Option.some.inj hobserve ▸ hreset
    | some pts => exact hreset.timed hobserve

/-- **The order that the times say.** -/
theorem order_of_packets (packets : Packets) (check : FrameOrderCheck)
    (h : packets.foldlM FrameOrderCheck.observe {} = some check) : check.order = orderOf packets := by
  obtain ⟨-, hkeyed, hcount, hreordered⟩ := tells_of_run h
  rw [FrameOrderCheck.order, orderOf, hreordered, hkeyed, hcount]
  by_cases hkey : upToKey packets = []
  · simp [hkey]
  · simp [hkey, FrameOrderCheck.IN_ORDER_PACKETS]

/-- A keyframe, a frame that shows later and one between them. -/
theorem order_of_group : FrameOrderCheck.order ⟨some 3600, true, 1, true⟩ =
    orderOf [(some 0, true), (some 7200, false), (some 3600, false)] :=
  order_of_packets _ _ (by decide)

end Ceres.Media.Remux
