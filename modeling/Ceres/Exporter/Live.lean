/-
  File:      Ceres/Exporter/Live.lean
  Subject:   A LIVE EXPORTER'S PLACE IN ITS STREAM (`exporter.py`: `_Live`, and the periods
             `__check_start` looks at).

  * `ExportKey` -- a timestamp and an id, in the order of the files;
  * `Live` -- what is notified, what a wake is writing and what it remembers of its files;
    `notify`, `restore`, `keep` -- how it changes;
  * `checkedStarts` -- the periods the check at the start goes through.
-/
import Ceres.Exporter.Span
import Ceres.Database.Cells
import Ceres.Library.Dict

namespace Ceres.Exporter

open Ceres.Library Ceres.Database

/-- A record's key; an id is a UUID and compares as its number. -/
structure ExportKey where
  timestamp : Int
  id : Uuid
  deriving DecidableEq, Repr

/-- The key as a pair, compared by its first component first. -/
def ExportKey.pair (key : ExportKey) : Int ×ₗ Nat := toLex (key.timestamp, key.id.toNat)

theorem ExportKey.pair_injective : Function.Injective ExportKey.pair := by
  intro a b h
  have hpair : (a.timestamp, a.id.toNat) = (b.timestamp, b.id.toNat) := toLex.injective h
  obtain ⟨htimestamp, hid⟩ := Prod.mk.inj hpair
  cases a
  cases b
  exact congrArg₂ ExportKey.mk htimestamp (BitVec.eq_of_toNat_eq hid)

instance : LinearOrder ExportKey := LinearOrder.lift' ExportKey.pair ExportKey.pair_injective

/-- The lowest and the highest key of some records. -/
abbrev KeyRange : Type := ExportKey × ExportKey

/-- What a live exporter keeps in memory. -/
structure Live where
  /-- The check at the start has written what was missed. -/
  checked : Bool
  /-- Ranges notified and not yet written, and those the wake is writing. -/
  pending : Dict Int KeyRange
  working : Dict Int KeyRange
  /-- The last key of a period's file; a period that is missing here reads it from the file. -/
  last : Dict Int (Option ExportKey)
  /-- Periods already warned about a late record. -/
  late : List Int
  /-- Periods whose whole file this exporter wrote from the database. -/
  owned : List Int

namespace Live

def fresh : Live := ⟨false, [], [], [], [], []⟩

/-- Widen a period's range so that it holds another. -/
def widen (ranges : Dict Int KeyRange) (start : Int) (range : KeyRange) : Dict Int KeyRange :=
  ranges.set start
    (match ranges.get start with
    | none => range
    | some found => (min found.1 range.1, max found.2 range.2))

/-- Add the keys a flush wrote to the range of each period that holds one. -/
def notify (live : Live) (period : ExporterPeriod) (keys : List ExportKey) : Live :=
  { live with
    pending := keys.foldl
      (fun pending key => widen pending (periodStart period key.timestamp) (key, key)) live.pending }

/-- Return the ranges of a failed wake to the pending ones. -/
def restore (live : Live) : Live :=
  { live with
    pending := live.working.foldl (fun pending entry => widen pending entry.1 entry.2) live.pending
    working := [] }

/-- A wake takes the pending ranges. -/
def take (live : Live) : Live := { live with working := live.pending, pending := [] }

def warnLate (live : Live) (start : Int) : Live :=
  if start ∈ live.late then live else { live with late := live.late ++ [start] }

def own (live : Live) (start : Int) : Live :=
  if start ∈ live.owned then live else { live with owned := live.owned ++ [start] }

/-- After a wake only the periods it wrote and the current one are remembered. -/
def keep (live : Live) (kept : List Int) : Live :=
  { live with
    last := live.last.filter fun entry => decide (entry.1 ∈ kept)
    owned := live.owned.filter fun start => decide (start ∈ kept) }

@[simp] theorem owned_notify (live : Live) (period : ExporterPeriod) (keys : List ExportKey) :
    (live.notify period keys).owned = live.owned := rfl

@[simp] theorem owned_restore (live : Live) : live.restore.owned = live.owned := rfl

@[simp] theorem owned_warnLate (live : Live) (start : Int) : (live.warnLate start).owned = live.owned := by
  unfold warnLate
  split <;> rfl

@[simp] theorem last_warnLate (live : Live) (start : Int) : (live.warnLate start).last = live.last := by
  unfold warnLate
  split <;> rfl

@[simp] theorem checked_warnLate (live : Live) (start : Int) : (live.warnLate start).checked = live.checked := by
  unfold warnLate
  split <;> rfl

@[simp] theorem last_own (live : Live) (start : Int) : (live.own start).last = live.last := by
  unfold own
  split <;> rfl

@[simp] theorem checked_own (live : Live) (start : Int) : (live.own start).checked = live.checked := by
  unfold own
  split <;> rfl

theorem mem_owned_own {live : Live} {start other : Int} :
    other ∈ (live.own start).owned ↔ other = start ∨ other ∈ live.owned := by
  unfold own
  split
  · rename_i h
    constructor
    · exact .inr
    · rintro (rfl | hother)
      · exact h
      · exact hother
  · simp [or_comm]

end Live

/-- Periods a live exporter checks at its start, at most. -/
def START_CHECKS : Nat := 100

/-- The periods the check at a start goes through: from the one before the current, or from the
    newest stored record's, the newest of them only. -/
def checkedStarts (period : ExporterPeriod) (started : Int) (newest : Option Int) : List Int :=
  let current := periodStart period started
  let first :=
    if period = .all then current
    else
      match newest with
      | none => periodShift period current (-1)
      | some newest => min (periodShift period current (-1)) (periodStart period newest)
  let starts := (periods period first (started + TICK)).filterMap Prod.fst
  let starts := if starts.isEmpty then [current] else starts
  starts.drop (starts.length - START_CHECKS)

end Ceres.Exporter
