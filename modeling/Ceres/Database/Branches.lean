/-
  File:      Ceres/Database/Branches.lean
  Subject:   BRANCH DISCOVERY (`selector.rs`: `scope`; `store.rs`: `discover_branches`,
             `walk_distinct`).

  The addresses a selector can admit are its literals and those under its prefixes. Discovery walks
  each prefix's range of the stored addresses, seeking from each distinct value to the next, and stops
  once it holds more than `BRANCH_CAP` entries.

  * `Scope`, `AddressSelector.scope`; `scope_covers` -- an admitted address is a literal or in a range;
  * `walkDistinct`, `walkDistinct_spec` -- a walk is a whole range or has more than the cap;
  * `gather`, `discoverBranches`; `gather_eq` -- what was gathered when the loop stops;
  * `Distinct` -- no stop at a place where only repetitions exceed the cap, and
    **`discover_complete_iff`** -- discovery is complete exactly then.
-/
import Mathlib.Data.Char
import Ceres.Database.Selector

namespace Ceres.Database

open Ceres.Library

/-! ## 1. Scopes -/

/-- Past this many branches the expanded listing is not worth its length. -/
def BRANCH_CAP : Nat := 256

/-- Where a selector's addresses are found. -/
structure Scope where
  literals : List Text := []
  prefixes : List Text := []
  unbounded : Bool := false
  deriving DecidableEq, Repr

def Scope.everything : Scope := { unbounded := true }

/-- The exclusive upper bound of a prefix walk, the separator stepped to the next character. -/
def Scope.ceiling (stem : Text) : Text := stem.dropLast ++ ['/']

/-- The loop of `scope` over the segments. -/
def scopeOf (base : Text) : Scope → List Text → Scope
  | scope, [] => scope
  | scope, segment :: segments =>
    let segment := absoluteSegment segment base
    match splitModifier segment with
    | none => scopeOf base { scope with literals := scope.literals ++ [segment] } segments
    | some (held, modifier) =>
      if held = ['~'] ∨ held = ['@'] then .everything
      else
        let literals := if modifier = .all then scope.literals ++ [held] else scope.literals
        scopeOf base { scope with literals, prefixes := scope.prefixes ++ [held ++ ['.']] } segments

/-- Where to look for the addresses this selector admits, resolved against a root. -/
def AddressSelector.scope (selector : AddressSelector) (root : Option Text) : Scope :=
  scopeOf (base root) {} selector.segments

/-! ## 2. Discovery -/

/-- A range of addresses, its floor inclusive and its ceiling not. -/
abbrev Range : Type := Option Text × Option Text

/-- The least stored address from the cursor on (or behind it) and below the ceiling. -/
def nextAddress (addresses : List Text) (cursor : Option Text) (inclusive : Bool)
    (ceiling : Option Text) : Option Text :=
  (addresses.filter fun a =>
    (cursor.all fun c => if inclusive then c ≤ a else c < a) && ceiling.all fun t => a < t).min?

/-- The loop of `walk_distinct`, with as many turns left as the cap allows. -/
def walkFrom (addresses : List Text) (ceiling : Option Text) : Nat → Option Text → Bool → List Text
  | 0, _, _ => []
  | turns + 1, cursor, inclusive =>
    match nextAddress addresses cursor inclusive ceiling with
    | none => []
    | some next => next :: walkFrom addresses ceiling turns (some next) false

/-- Walk one range's distinct values, seeking from each to the next. -/
def walkDistinct (addresses : List Text) (range : Range) : List Text :=
  walkFrom addresses range.2 (BRANCH_CAP + 1) range.1 range.1.isSome

def Scope.ranges (scope : Scope) : List Range :=
  if scope.unbounded then [(none, none)]
  else scope.prefixes.map fun stem => (some stem, some (Scope.ceiling stem))

/-- The loop of `discover_branches`. -/
def gather (addresses : List Text) : List Text → List Range → List Text
  | found, [] => found
  | found, range :: ranges =>
    let found := found ++ walkDistinct addresses range
    if found.length > BRANCH_CAP then found else gather addresses found ranges

/-- Equal neighbours made one. -/
def dedup : List Text → List Text
  | [] => []
  | [a] => [a]
  | a :: b :: rest => if a = b then dedup (b :: rest) else a :: dedup (b :: rest)

/-- The distinct addresses a scope covers, read from the records themselves. -/
def discoverBranches (addresses : List Text) (scope : Scope) : List Text :=
  dedup ((gather addresses scope.literals scope.ranges).mergeSort (· ≤ ·))

/-! ## 3. Ranges and prefixes -/

/-- The address lies in the range. -/
def inRange (range : Range) (a : Text) : Prop :=
  (∀ c ∈ range.1, c ≤ a) ∧ ∀ t ∈ range.2, a < t

instance (range : Range) (a : Text) : Decidable (inRange range a) := by
  unfold inRange
  infer_instance

/-- The slash follows the dot, so the range from one to the other holds the texts behind the dot. -/
theorem opens_iff_range (stem a : Text) : stem ++ ['.'] <+: a ↔ stem ++ ['.'] ≤ a ∧ a < stem ++ ['/'] := by
  induction stem generalizing a with
  | nil =>
    cases a with
    | nil => decide
    | cons d a =>
      have hchar : d = '.' ↔ ¬ d < '.' ∧ d < '/' := by
        constructor
        · rintro rfl
          decide
        · rintro ⟨h₁, h₂⟩
          have hd₁ : ¬ d.toNat < 46 := h₁
          have hd₂ : d.toNat < 47 := h₂
          exact Char.toNat_inj.mp (show d.toNat = 46 by omega)
      simp only [List.nil_append, List.cons_prefix_cons, List.nil_prefix, and_true, ← not_lt,
        List.cons_lt_cons_iff, List.not_lt_nil, and_false, or_false]
      rw [eq_comm, hchar]
  | cons c stem ih =>
    cases a with
    | nil => simp
    | cons d a =>
      simp only [List.cons_append, List.cons_prefix_cons, ih a, ← not_lt, List.cons_lt_cons_iff]
      constructor
      · rintro ⟨rfl, h₁, h₂⟩
        exact ⟨by simp [h₁], .inr ⟨rfl, h₂⟩⟩
      · rintro ⟨h₁, h₂ | ⟨rfl, h₂⟩⟩
        · exact absurd (.inl h₂) h₁
        · exact ⟨rfl, fun h => h₁ (.inr ⟨rfl, h⟩), h₂⟩

/-- A prefix's range holds what the prefix opens. -/
theorem inRange_stem (stem a : Text) :
    inRange (some (stem ++ ['.']), some (Scope.ceiling (stem ++ ['.']))) a ↔ stem ++ ['.'] <+: a := by
  rw [opens_iff_range]
  simp [inRange, Scope.ceiling]

/-! ## 4. The walk -/

/-- The addresses a walk has in front of it. -/
def ahead (cursor : Option Text) (inclusive : Bool) (ceiling : Option Text) (a : Text) : Prop :=
  (∀ c ∈ cursor, if inclusive then c ≤ a else c < a) ∧ ∀ t ∈ ceiling, a < t

theorem mem_filter_ahead {addresses : List Text} {cursor ceiling : Option Text} {inclusive : Bool} {a : Text} :
    a ∈ (addresses.filter fun a =>
      (cursor.all fun c => if inclusive then c ≤ a else c < a) && ceiling.all fun t => a < t) ↔
      a ∈ addresses ∧ ahead cursor inclusive ceiling a := by
  rw [List.mem_filter, ahead]
  cases cursor <;> cases ceiling <;> cases inclusive <;> simp

theorem nextAddress_spec (addresses : List Text) (cursor ceiling : Option Text) (inclusive : Bool) :
    (nextAddress addresses cursor inclusive ceiling = none ∧
      ∀ a ∈ addresses, ¬ ahead cursor inclusive ceiling a) ∨
    ∃ next, nextAddress addresses cursor inclusive ceiling = some next ∧ next ∈ addresses ∧
      ahead cursor inclusive ceiling next ∧ ∀ a ∈ addresses, ahead cursor inclusive ceiling a → next ≤ a := by
  unfold nextAddress
  cases hmin : (addresses.filter fun a =>
      (cursor.all fun c => if inclusive then c ≤ a else c < a) && ceiling.all fun t => a < t).min? with
  | none =>
    rw [List.min?_eq_none_iff] at hmin
    refine .inl ⟨rfl, fun a ha hahead => ?_⟩
    have hmem := mem_filter_ahead.mpr ⟨ha, hahead⟩
    rw [hmin] at hmem
    exact List.not_mem_nil hmem
  | some next =>
    rw [List.min?_eq_some_iff] at hmin
    obtain ⟨hnext, hahead⟩ := mem_filter_ahead.mp hmin.1
    exact .inr ⟨next, rfl, hnext, hahead, fun a ha haa =>
      hmin.2 a (mem_filter_ahead.mpr ⟨ha, haa⟩)⟩

theorem ahead_of_lt {cursor ceiling : Option Text} {inclusive : Bool} {next a : Text}
    (h : ahead cursor inclusive ceiling next) (ha : ahead (some next) false ceiling a) :
    ahead cursor inclusive ceiling a := by
  refine ⟨fun c hc => ?_, ha.2⟩
  have h₁ := h.1 c hc
  have h₂ : next < a := by simpa using ha.1 next rfl
  cases inclusive with
  | false => exact lt_trans (by simpa using h₁) h₂
  | true => exact le_trans (by simpa using h₁) h₂.le

/-- **What a walk gives**: addresses ahead, none twice, and all of them when turns are left. -/
theorem walkFrom_spec (addresses : List Text) (ceiling : Option Text) :
    ∀ (turns : Nat) (cursor : Option Text) (inclusive : Bool),
      (∀ a ∈ walkFrom addresses ceiling turns cursor inclusive,
        a ∈ addresses ∧ ahead cursor inclusive ceiling a) ∧
      (walkFrom addresses ceiling turns cursor inclusive).Nodup ∧
      (walkFrom addresses ceiling turns cursor inclusive).length ≤ turns ∧
      ((walkFrom addresses ceiling turns cursor inclusive).length < turns →
        ∀ a ∈ addresses, ahead cursor inclusive ceiling a →
          a ∈ walkFrom addresses ceiling turns cursor inclusive)
  | 0, _, _ => ⟨by simp [walkFrom], List.nodup_nil, le_refl _, by simp⟩
  | turns + 1, cursor, inclusive => by
      rcases nextAddress_spec addresses cursor ceiling inclusive with
        ⟨hnone, hnothing⟩ | ⟨next, hsome, hnext, hahead, hleast⟩
      · simp only [walkFrom, hnone]
        exact ⟨by simp, List.nodup_nil, by simp, fun _ a ha haa => absurd haa (hnothing a ha)⟩
      · obtain ⟨hmem, hnodup, hlength, hall⟩ := walkFrom_spec addresses ceiling turns (some next) false
        simp only [walkFrom, hsome]
        refine ⟨?_, ?_, by simpa using hlength, ?_⟩
        · intro a ha
          rcases List.mem_cons.mp ha with rfl | ha
          · exact ⟨hnext, hahead⟩
          · exact ⟨(hmem a ha).1, ahead_of_lt hahead (hmem a ha).2⟩
        · refine List.nodup_cons.mpr ⟨fun hin => ?_, hnodup⟩
          have hlt := (hmem next hin).2.1 next rfl
          simp at hlt
        · intro hshort a ha haa
          by_cases heq : a = next
          · simp [heq]
          · refine List.mem_cons_of_mem _ (hall (by simpa using hshort) a ha ⟨fun c hc => ?_, haa.2⟩)
            cases hc
            simpa using lt_of_le_of_ne (hleast a ha haa) (Ne.symm heq)

def stored (addresses : List Text) (range : Range) : Finset Text :=
  addresses.toFinset.filter (inRange range ·)

theorem mem_stored {addresses : List Text} {range : Range} {a : Text} :
    a ∈ stored addresses range ↔ a ∈ addresses ∧ inRange range a := by
  simp [stored]

/-- **A walk stays in its range, repeats nothing, and is the whole range or exceeds the cap.** -/
theorem walkDistinct_spec (addresses : List Text) (range : Range) :
    (walkDistinct addresses range).toFinset ⊆ stored addresses range ∧ (walkDistinct addresses range).Nodup ∧
      (BRANCH_CAP < (walkDistinct addresses range).length ∨
        (walkDistinct addresses range).toFinset = stored addresses range) := by
  have hahead : ∀ a, ahead range.1 range.1.isSome range.2 a ↔ inRange range a := by
    intro a
    unfold ahead inRange
    cases range.1 <;> simp
  obtain ⟨hmem, hnodup, -, hall⟩ := walkFrom_spec addresses range.2 (BRANCH_CAP + 1) range.1 range.1.isSome
  have hsub : (walkDistinct addresses range).toFinset ⊆ stored addresses range := by
    intro a ha
    have := hmem a (List.mem_toFinset.mp ha)
    exact mem_stored.mpr ⟨this.1, (hahead a).mp this.2⟩
  refine ⟨hsub, hnodup, ?_⟩
  by_cases hlength : (walkDistinct addresses range).length < BRANCH_CAP + 1
  · refine .inr (hsub.antisymm fun a ha => ?_)
    obtain ⟨ha, hin⟩ := mem_stored.mp ha
    exact List.mem_toFinset.mpr (hall hlength a ha ((hahead a).mpr hin))
  · exact .inl (by omega)

/-! ## 5. What was gathered when the loop stops -/

theorem mem_dedup {a : Text} : ∀ {found : List Text}, a ∈ dedup found ↔ a ∈ found
  | [] => by simp [dedup]
  | [b] => by simp [dedup]
  | b :: c :: rest => by
      rw [dedup]
      split
      · rename_i h
        rw [mem_dedup, h]
        simp
      · rw [List.mem_cons, mem_dedup, List.mem_cons (b := b)]

theorem nodup_dedup : ∀ {found : List Text}, found.Pairwise (· ≤ ·) → (dedup found).Nodup
  | [], _ => by simp [dedup]
  | [b], _ => by simp [dedup]
  | b :: c :: rest, h => by
      have htail := (List.pairwise_cons.mp h).2
      rw [dedup]
      split
      · exact nodup_dedup htail
      · rename_i hne
        refine List.nodup_cons.mpr ⟨fun hmem => ?_, nodup_dedup htail⟩
        rw [mem_dedup] at hmem
        have hbc : b ≤ c := (List.pairwise_cons.mp h).1 c (by simp)
        rcases List.mem_cons.mp hmem with hbc' | hmem
        · exact hne hbc'
        · exact hne (le_antisymm hbc ((List.pairwise_cons.mp htail).1 b hmem))

theorem discoverBranches_spec (addresses : List Text) (scope : Scope) :
    (∀ a, a ∈ discoverBranches addresses scope ↔ a ∈ gather addresses scope.literals scope.ranges) ∧
      (discoverBranches addresses scope).Nodup ∧ (discoverBranches addresses scope).length =
        (gather addresses scope.literals scope.ranges).toFinset.card := by
  have hmem : ∀ a, a ∈ discoverBranches addresses scope ↔ a ∈ gather addresses scope.literals scope.ranges := by
    intro a
    rw [discoverBranches, mem_dedup, List.mem_mergeSort]
  have hsorted : ((gather addresses scope.literals scope.ranges).mergeSort (· ≤ ·)).Pairwise
      (· ≤ ·) := by
    have := @List.pairwise_mergeSort _ (fun a b : Text => decide (a ≤ b))
      (fun a b c hab hbc => by simpa using le_trans (by simpa using hab) (by simpa using hbc))
      (fun a b => by simpa using le_total a b) (gather addresses scope.literals scope.ranges)
    simpa using this
  have hnodup : (discoverBranches addresses scope).Nodup := nodup_dedup hsorted
  refine ⟨hmem, hnodup, ?_⟩
  rw [← List.toFinset_card_of_nodup hnodup]
  congr 1
  ext a
  simp [hmem]

/-- The first turns of the loop. -/
def turnsOf (addresses : List Text) (ranges : List Range) (k : Nat) : List Text :=
  (ranges.take k).flatMap (walkDistinct addresses)

/-- **The loop stops behind some range**: the first that exceeds the cap, or the last. -/
theorem gather_eq (addresses : List Text) : ∀ (ranges : List Range) (found : List Text),
    ranges ≠ [] → ∃ m, 0 < m ∧ m ≤ ranges.length ∧
      gather addresses found ranges = found ++ turnsOf addresses ranges m ∧
      (m < ranges.length → BRANCH_CAP < (found ++ turnsOf addresses ranges m).length) ∧
      ∀ k, 0 < k → k < m → (found ++ turnsOf addresses ranges k).length ≤ BRANCH_CAP
  | [], _, h => absurd rfl h
  | range :: ranges, found, _ => by
      have hone : ∀ k, found ++ turnsOf addresses (range :: ranges) (k + 1) =
          found ++ walkDistinct addresses range ++ turnsOf addresses ranges k := by
        intro k
        simp [turnsOf]
      have hfirst : found ++ turnsOf addresses (range :: ranges) 1 =
          found ++ walkDistinct addresses range := by simp [turnsOf]
      by_cases hstop : (found ++ walkDistinct addresses range).length > BRANCH_CAP
      · refine ⟨1, by omega, by simp, ?_, ?_, by omega⟩
        · simp only [gather, if_pos hstop, hfirst]
        · rw [hfirst]
          exact fun _ => hstop
      · by_cases hlast : ranges = []
        · subst hlast
          refine ⟨1, by omega, by simp, ?_, by simp, by omega⟩
          simp only [gather, if_neg hstop, hfirst]
        · obtain ⟨m, hpos, hle, heq, hexceed, hbelow⟩ :=
            gather_eq addresses ranges (found ++ walkDistinct addresses range) hlast
          refine ⟨m + 1, by omega, by simpa using hle, ?_, ?_, ?_⟩
          · simp only [gather, if_neg hstop, heq, hone]
          · intro hm
            rw [hone]
            exact hexceed (by simpa using hm)
          · intro k hk hkm
            obtain ⟨k, rfl⟩ : ∃ k', k = k' + 1 := ⟨k - 1, by omega⟩
            by_cases hk₀ : k = 0
            · subst hk₀
              rw [hfirst]
              exact not_lt.mp hstop
            · rw [hone]
              exact hbelow k (by omega) (by omega)

/-! ## 6. Completeness -/

/-- What the literals and the first ranges hold. -/
def reached (addresses : List Text) (scope : Scope) (k : Nat) : Finset Text :=
  scope.literals.toFinset ∪ (scope.ranges.take k).toFinset.biUnion (stored addresses)

/-- How many entries the literals and the first ranges come to, repetitions counted. -/
def counted (addresses : List Text) (scope : Scope) (k : Nat) : Nat :=
  scope.literals.length + ((scope.ranges.take k).map fun range => (stored addresses range).card).sum

/-- Where the entries so far exceed the cap, so do the different addresses among them, or the ranges
    so far already hold every admitted address. -/
def CapCountsBranches (addresses : List Text) (scope : Scope) (admitted : Text → Bool) : Prop :=
  ∀ k, 0 < k → k ≤ scope.ranges.length → BRANCH_CAP < counted addresses scope k →
    BRANCH_CAP < (reached addresses scope k).card ∨
      ∀ a ∈ addresses, admitted a = true → a ∈ reached addresses scope k

section Completeness

variable (addresses : List Text) (scope : Scope)

/-- The entries gathered up to a range. -/
def gathered (k : Nat) : List Text := scope.literals ++ turnsOf addresses scope.ranges k

theorem mem_gathered {k : Nat} {a : Text} : a ∈ gathered addresses scope k ↔ a ∈ scope.literals ∨
      ∃ range ∈ scope.ranges.take k, a ∈ walkDistinct addresses range := by
  simp [gathered, turnsOf]

theorem mem_reached {k : Nat} {a : Text} : a ∈ reached addresses scope k ↔ a ∈ scope.literals ∨
      ∃ range ∈ scope.ranges.take k, a ∈ stored addresses range := by
  simp [reached]

theorem reached_mono {k l : Nat} (h : k ≤ l) : reached addresses scope k ⊆ reached addresses scope l := by
  intro a ha
  rw [mem_reached] at ha ⊢
  rcases ha with ha | ⟨range, hr, ha⟩
  · exact .inl ha
  · exact .inr ⟨range, (List.take_subset_take_left _ h) hr, ha⟩

theorem gathered_subset (k : Nat) : (gathered addresses scope k).toFinset ⊆ reached addresses scope k := by
  intro a ha
  rw [List.mem_toFinset, mem_gathered] at ha
  rw [mem_reached]
  rcases ha with ha | ⟨range, hr, ha⟩
  · exact .inl ha
  · exact .inr ⟨range, hr, (walkDistinct_spec addresses range).1 (List.mem_toFinset.mpr ha)⟩

/-- **Up to a range, everything was gathered or more than the cap.** -/
theorem gathered_whole_or_exceeds (k : Nat) : BRANCH_CAP < (gathered addresses scope k).toFinset.card ∨
      (gathered addresses scope k).toFinset = reached addresses scope k := by
  by_cases hlong : ∃ range ∈ scope.ranges.take k, BRANCH_CAP < (walkDistinct addresses range).length
  · obtain ⟨range, hr, hlong⟩ := hlong
    refine .inl (hlong.trans_le ?_)
    rw [← List.toFinset_card_of_nodup (walkDistinct_spec addresses range).2.1]
    refine Finset.card_le_card fun a ha => ?_
    rw [List.mem_toFinset, mem_gathered]
    exact .inr ⟨range, hr, List.mem_toFinset.mp ha⟩
  · refine .inr ((gathered_subset addresses scope k).antisymm fun a ha => ?_)
    rw [List.mem_toFinset, mem_gathered]
    rw [mem_reached] at ha
    rcases ha with ha | ⟨range, hr, ha⟩
    · exact .inl ha
    · refine .inr ⟨range, hr, ?_⟩
      rcases (walkDistinct_spec addresses range).2.2 with hw | hw
      · exact absurd ⟨range, hr, hw⟩ hlong
      · rw [← hw] at ha
        exact List.mem_toFinset.mp ha

theorem length_gathered (k : Nat) : (gathered addresses scope k).length = scope.literals.length +
      ((scope.ranges.take k).map fun range => (walkDistinct addresses range).length).sum := by
  simp [gathered, turnsOf, List.length_flatMap]

theorem length_walkDistinct (range : Range) :
    (walkDistinct addresses range).length ≤ (stored addresses range).card ∧
      ((walkDistinct addresses range).length ≤ BRANCH_CAP →
        (walkDistinct addresses range).length = (stored addresses range).card) := by
  obtain ⟨hsub, hnodup, hwhole⟩ := walkDistinct_spec addresses range
  rw [← List.toFinset_card_of_nodup hnodup]
  refine ⟨Finset.card_le_card hsub, fun hle => ?_⟩
  rw [List.toFinset_card_of_nodup hnodup] at hle
  rcases hwhole with hwhole | hwhole
  · omega
  · rw [hwhole]

theorem length_gathered_le (k : Nat) : (gathered addresses scope k).length ≤ counted addresses scope k := by
  rw [length_gathered, counted]
  exact Nat.add_le_add_left
    (List.sum_le_sum fun range _ => (length_walkDistinct addresses range).1) _

theorem card_reached_le (k : Nat) :
    (reached addresses scope k).card ≤ scope.literals.length + addresses.length := by
  have hsub : reached addresses scope k ⊆ scope.literals.toFinset ∪ addresses.toFinset := by
    intro a ha
    rcases (mem_reached addresses scope).mp ha with h | ⟨range, -, h⟩
    · exact Finset.mem_union_left _ (List.mem_toFinset.mpr h)
    · exact Finset.mem_union_right _ (List.mem_toFinset.mpr (mem_stored.mp h).1)
  calc (reached addresses scope k).card
      ≤ (scope.literals.toFinset ∪ addresses.toFinset).card := Finset.card_le_card hsub
    _ ≤ scope.literals.toFinset.card + addresses.toFinset.card := Finset.card_union_le _ _
    _ ≤ scope.literals.length + addresses.length :=
      Nat.add_le_add (List.toFinset_card_le _) (List.toFinset_card_le _)

theorem capCountsBranches_of_few (admitted : Text → Bool)
    (h : scope.literals.length + scope.ranges.length * addresses.length ≤ BRANCH_CAP) :
    CapCountsBranches addresses scope admitted := by
  intro k _ hk hcounted
  have hsum : ((scope.ranges.take k).map fun range => (stored addresses range).card).sum ≤
      scope.ranges.length * addresses.length := by
    calc ((scope.ranges.take k).map fun range => (stored addresses range).card).sum
        ≤ (scope.ranges.take k).length • addresses.length := by
          refine (List.sum_le_card_nsmul _ addresses.length fun n hn => ?_).trans (by simp)
          obtain ⟨range, -, rfl⟩ := List.mem_map.mp hn
          exact (Finset.card_filter_le _ _).trans (List.toFinset_card_le _)
      _ ≤ scope.ranges.length * addresses.length := by
          rw [smul_eq_mul]
          exact Nat.mul_le_mul_right _ (by simp)
  rw [counted] at hcounted
  omega

theorem length_gathered_eq {k : Nat} (h : (gathered addresses scope k).length ≤ BRANCH_CAP) :
    (gathered addresses scope k).length = counted addresses scope k := by
  rw [length_gathered] at h ⊢
  rw [counted]
  congr 2
  refine List.map_congr_left fun range hr => (length_walkDistinct addresses range).2 ?_
  have hle := List.single_le_sum (l := (scope.ranges.take k).map fun range =>
    (walkDistinct addresses range).length) (by simp) _ (List.mem_map_of_mem hr)
  omega

/-- **Discovery is complete exactly when the cap counts branches.** -/
theorem discover_complete_iff (hranges : scope.ranges ≠ []) (admitted : Text → Bool)
    (hcovers : ∀ a ∈ addresses, admitted a = true →
      a ∈ reached addresses scope scope.ranges.length) : (BRANCH_CAP < (discoverBranches addresses scope).length ∨
      ∀ a ∈ addresses, admitted a = true → a ∈ discoverBranches addresses scope) ↔
      CapCountsBranches addresses scope admitted := by
  obtain ⟨hmem, -, hlength⟩ := discoverBranches_spec addresses scope
  obtain ⟨m, hpos, hle, heq, hexceed, hbelow⟩ := gather_eq addresses scope.ranges scope.literals hranges
  have heq' : gather addresses scope.literals scope.ranges = gathered addresses scope m := heq
  simp only [hmem, hlength, heq']
  constructor
  · intro h k hk hkle hcount
    -- the loop stopped at or before this range, else the entries so far would not exceed the cap
    have hmk : m ≤ k := by
      by_contra hlt
      have hshort := hbelow k hk (by omega)
      have := length_gathered_eq addresses scope hshort
      have hshort' : (gathered addresses scope k).length ≤ BRANCH_CAP := hshort
      omega
    have hsub := (gathered_subset addresses scope m).trans (reached_mono addresses scope hmk)
    rcases h with h | h
    · exact .inl (h.trans_le (Finset.card_le_card hsub))
    · exact .inr fun a ha hadm => hsub (List.mem_toFinset.mpr (h a ha hadm))
  · intro h
    rcases gathered_whole_or_exceeds addresses scope m with hbig | hwhole
    · exact .inl hbig
    · have hall : BRANCH_CAP < (reached addresses scope m).card ∨
          ∀ a ∈ addresses, admitted a = true → a ∈ reached addresses scope m := by
        by_cases hm : m < scope.ranges.length
        · exact h m hpos hle ((hexceed hm).trans_le (length_gathered_le addresses scope m))
        · rw [show m = scope.ranges.length by omega]
          exact .inr hcovers
      rw [← hwhole] at hall
      simpa only [List.mem_toFinset] using hall

end Completeness

/-! ## 7. A scope covers what its selector admits -/

/-- An address that a segment with a base of its own selects. -/
theorem segmentMatches_under {segment held a : Text} {m : Modifier}
    (hsplit : splitModifier segment = some (held, m)) (h : ¬ (held = ['~'] ∨ held = ['@']))
    (ha : segmentMatches segment a = true) : (m = .all ∧ a = held) ∨ held ++ ['.'] <+: a := by
  rw [not_or] at h
  have hbehind : ∀ rest, (a.dropPrefix? held).bind (·.dropPrefix? ['.']) = some rest →
      held ++ ['.'] <+: a := fun rest hr => ⟨rest, by rw [descendant_eq_some.mp hr]; simp⟩
  simp only [segmentMatches, hsplit, if_neg h.1, if_neg h.2] at ha
  cases hd : (a.dropPrefix? held).bind (·.dropPrefix? ['.']) with
  | some rest => exact .inr (hbehind rest hd)
  | none =>
    rw [hd] at ha
    cases m with
    | all => exact .inl ⟨rfl, by simpa using ha⟩
    | children => simp at ha
    | descendants => simp at ha

/-- **What the loop over the segments collects.** -/
theorem scopeOf_spec (base : Text) : ∀ (segments : List Text) (scope : Scope),
    scopeOf base scope segments = .everything ∨ ((scopeOf base scope segments).unbounded = scope.unbounded ∧
        scope.literals ⊆ (scopeOf base scope segments).literals ∧
        scope.prefixes ⊆ (scopeOf base scope segments).prefixes ∧
        (∀ stem ∈ (scopeOf base scope segments).prefixes,
          stem ∈ scope.prefixes ∨ ∃ held, stem = held ++ ['.']) ∧
        ∀ segment ∈ segments, ∀ a, segmentMatches (absoluteSegment segment base) a = true →
          a ∈ (scopeOf base scope segments).literals ∨
            ∃ stem ∈ (scopeOf base scope segments).prefixes, stem <+: a)
  | [], scope => .inr ⟨rfl, List.Subset.refl _, List.Subset.refl _, fun _ h => .inl h, by simp⟩
  | segment :: segments, scope => by
      cases hsplit : splitModifier (absoluteSegment segment base) with
      | none =>
        have hstep : scopeOf base scope (segment :: segments) = scopeOf base
            { scope with literals := scope.literals ++ [absoluteSegment segment base] } segments := by
          simp only [scopeOf, hsplit]
        rw [hstep]
        rcases scopeOf_spec base segments
            { scope with literals := scope.literals ++ [absoluteSegment segment base] } with h | h
        · exact .inl h
        · obtain ⟨hu, hl, hp, hstem, hcover⟩ := h
          refine .inr ⟨hu, fun a ha => hl (List.mem_append_left _ ha), hp, hstem, ?_⟩
          intro s hs a ha
          rcases List.mem_cons.mp hs with rfl | hs
          · rw [segmentMatches, hsplit, beq_iff_eq] at ha
            exact .inl (hl (by simp [ha]))
          · exact hcover s hs a ha
      | some parts =>
        obtain ⟨held, m⟩ := parts
        by_cases hall : held = ['~'] ∨ held = ['@']
        · exact .inl (by simp only [scopeOf, hsplit, if_pos hall])
        · have hstep : scopeOf base scope (segment :: segments) = scopeOf base
              { scope with
                literals := if m = .all then scope.literals ++ [held] else scope.literals
                prefixes := scope.prefixes ++ [held ++ ['.']] } segments := by
            simp only [scopeOf, hsplit, if_neg hall]
          rw [hstep]
          rcases scopeOf_spec base segments
              { scope with
                literals := if m = .all then scope.literals ++ [held] else scope.literals
                prefixes := scope.prefixes ++ [held ++ ['.']] } with h | h
          · exact .inl h
          · obtain ⟨hu, hl, hp, hstem, hcover⟩ := h
            refine .inr ⟨hu, fun a ha => hl ?_, fun a ha => hp (List.mem_append_left _ ha), ?_, ?_⟩
            · show a ∈ if m = .all then scope.literals ++ [held] else scope.literals
              split
              · exact List.mem_append_left _ ha
              · exact ha
            · intro stem hs
              rcases hstem stem hs with h | h
              · rcases List.mem_append.mp h with h | h
                · exact .inl h
                · exact .inr ⟨held, by simpa using h⟩
              · exact .inr h
            · intro s hs a ha
              rcases List.mem_cons.mp hs with rfl | hs
              · rcases segmentMatches_under hsplit hall ha with ⟨rfl, rfl⟩ | hopens
                · exact .inl (hl (by simp))
                · exact .inr ⟨held ++ ['.'], hp (by simp), hopens⟩
              · exact hcover s hs a ha

/-- The scope has something to walk. -/
def Scope.walks (scope : Scope) : Bool := !scope.prefixes.isEmpty || scope.unbounded

theorem Scope.ranges_ne_nil {scope : Scope} (h : scope.walks = true) : scope.ranges ≠ [] := by
  unfold Scope.walks at h
  unfold Scope.ranges
  split
  · simp
  · rename_i hu
    simpa [hu] using h

/-- **Every admitted address is a literal or lies in a range.** -/
theorem AddressSelector.scope_covers (selector : AddressSelector) (root : Option Text) (addresses : List Text) :
    ∀ a ∈ addresses, selector.matches a root = true →
      a ∈ reached addresses (selector.scope root) (selector.scope root).ranges.length := by
  intro a ha hadm
  rw [mem_reached, List.take_length]
  obtain ⟨segment, hs, hm⟩ := List.any_eq_true.mp hadm
  rcases scopeOf_spec (base root) selector.segments {} with h | ⟨hu, -, -, hstem, hcover⟩
  · refine .inr ⟨(none, none), ?_, mem_stored.mpr ⟨ha, by simp [inRange]⟩⟩
    rw [AddressSelector.scope, h]
    simp [Scope.everything, Scope.ranges]
  · rcases hcover segment hs a hm with h | ⟨stem, hmem, hopens⟩
    · exact .inl h
    · refine .inr ⟨(some stem, some (Scope.ceiling stem)), ?_, mem_stored.mpr ⟨ha, ?_⟩⟩
      · rw [AddressSelector.scope, Scope.ranges, hu]
        exact List.mem_map_of_mem hmem
      · rcases hstem stem hmem with hnone | ⟨held, rfl⟩
        · simp at hnone
        · exact (inRange_stem held a).mpr hopens

end Ceres.Database
