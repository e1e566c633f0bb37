/-
  File:      Ceres/Console/Widths.lean
  Subject:   THE WIDTHS OF A ROW (`console/app/workspace/layout.ts`: `resolveWidths`, `filledWidths`;
             `edit-session.ts`: the repair of broken rows).

  A row spans 120 units. `resolveWidths` takes the difference from the widths that are not kept, in exact
  shares first and then in whole units. `filledWidths` scales all widths and puts what is left on the last.

  * `Cell` -- a width, and whether it is adjusted; `spread` -- the passes; `push` -- the drift;
  * `least` -- what a row takes if every adjusted width gives all it can;
  * `spread_total`, `push_up`, `push_down` -- what the two loops do to the total;
  * `resolveWidths_floor`, `resolveWidths_sum`, `resolveWidths_kept` -- the widths are at least 1, total 120 where
    `least` leaves room, and the kept ones stay;
  * `repair` -- the watcher; **`repair_converges_iff`** -- when it comes to a row that can be drawn.
-/
import Mathlib.Tactic

namespace Ceres.Console.Widths

/-! ## 1. Resolving widths -/

/-- A width, and whether it is adjusted. -/
abbrev Cell (α : Type) : Type := α × Bool

inductive AdjustMode where
  | after
  | other
  deriving DecidableEq

/-- Math.round. -/
def round (x : ℚ) : Int := ⌊x + 1 / 2⌋

/-- The positions that absorb the difference. -/
def adjustedIndices (n : Nat) (keepIndices : List Int) (adjustMode : AdjustMode) : List Nat :=
  let kept := keepIndices.filter fun index => decide (0 ≤ index)
  let indices := List.range n
  let adjusted :=
    if kept = [] then indices
    else
      match adjustMode with
      | .after => indices.drop ((kept.foldl max 0).toNat + 1)
      | .other => indices.filter fun index => !kept.contains (index : Int)
  if adjusted = [] then indices else adjusted

def total (row : List (Cell ℚ)) : ℚ := (row.map Prod.fst).sum

/-- An adjusted width that can still give, or that takes. -/
def gives (excess : ℚ) (cell : Cell ℚ) : Bool := cell.2 && (decide (excess ≤ 0) || decide (1 < cell.1))

/-- The passes that spread the excess over the adjusted widths, evenly and down to the floor. -/
def spread : Nat → List (Cell ℚ) → List (Cell ℚ)
  | 0, row => row
  | pass + 1, row =>
    let excess := total row - 120
    if excess = 0 then row
    else
      let givers := row.countP (gives excess)
      if givers = 0 then row
      else
        let share := excess / givers
        spread pass (row.map fun cell =>
          if gives excess cell then (if 0 < excess then max (cell.1 - share) 1 else cell.1 - share, cell.2) else cell)

/-- The first adjusted width of that size, a step wider. -/
def bump (width step : Int) : List (Cell Int) → List (Cell Int)
  | [] => []
  | cell :: rest => if cell = (width, true) then (width + step, true) :: rest else cell :: bump width step rest

/-- The drift, one unit at a time: onto the narrowest, or from the widest that is above the floor. -/
def push (step : Int) : Nat → List (Cell Int) → List (Cell Int)
  | 0, row => row
  | drift + 1, row =>
    let candidates := (row.filter fun cell => cell.2 && (decide (0 < step) || decide (1 < cell.1))).map Prod.fst
    match if 0 < step then candidates.min? else candidates.max? with
    | none => row
    | some width => push step drift (bump width step row)

/-- The widths with the floor, marked. -/
def marked (widths : List ℚ) (adjusted : List Nat) : List (Cell ℚ) :=
  widths.zipIdx.map fun entry => (max entry.1 1, adjusted.contains entry.2)

/-- The widths already fill the row. -/
def Full (widths : List ℚ) : Prop := widths.sum = 120 ∧ ∀ width ∈ widths, 1 ≤ width

instance (widths : List ℚ) : Decidable (Full widths) := inferInstanceAs (Decidable (_ ∧ _))

/-- The resolved widths in whole units. -/
def rounded (resolved : List (Cell ℚ)) : List (Cell Int) := resolved.map fun cell => (round cell.1, cell.2)

/-- Spread a row's widths back over `widgetWidthSubdivisions`. -/
def resolveWidths (widths : List ℚ) (keepIndices : List Int) (adjustMode : AdjustMode) : List ℚ :=
  if widths = [] then []
  else if Full widths then widths
  else
    let resolved := spread (widths.length + 1) (marked widths (adjustedIndices widths.length keepIndices adjustMode))
    let drift := round (total resolved) - ((rounded resolved).map Prod.fst).sum
    (push drift.sign drift.natAbs (rounded resolved)).map fun cell => (cell.1 : ℚ)

/-- What the fixed widths are, `none` for an adjusted one. -/
def fixed {α : Type} (row : List (Cell α)) : List (Option α) := row.map fun cell => if cell.2 then none else some cell.1

/-- The fixed widths and one unit for each adjusted. -/
def least {α : Type} (f : α → ℚ) (row : List (Cell α)) : ℚ := (row.map fun cell => if cell.2 then 1 else f cell.1).sum

theorem least_eq {α : Type} (f : α → ℚ) (row : List (Cell α)) :
    least f row = ((fixed row).map fun width => width.elim 1 f).sum := by
  unfold least fixed
  rw [List.map_map]
  congr 1
  refine List.map_congr_left fun cell _ => ?_
  cases hcell : cell.2 <;> simp [hcell]

/-- A row whose adjusted widths are at the floor takes no more. -/
theorem sum_floored {α : Type} (f : α → ℚ) {row : List (Cell α)} (h : ∀ cell ∈ row, cell.2 = true → f cell.1 ≤ 1) :
    (row.map fun cell => f cell.1).sum ≤ least f row := by
  refine List.sum_le_sum fun cell hcell => ?_
  split
  · rename_i hmarked
    exact h cell hcell hmarked
  · exact le_refl _

/-! ## 2. The passes -/

section Passes

/-- What a pass does to one width. -/
def given (excess share : ℚ) (cell : Cell ℚ) : Cell ℚ :=
  if gives excess cell then (if 0 < excess then max (cell.1 - share) 1 else cell.1 - share, cell.2) else cell

theorem spread_succ (pass : Nat) (row : List (Cell ℚ)) : spread (pass + 1) row =
      if total row - 120 = 0 ∨ row.countP (gives (total row - 120)) = 0 then row
      else spread pass (row.map (given (total row - 120)
        ((total row - 120) / row.countP (gives (total row - 120))))) := by
  rw [spread]
  by_cases hexcess : total row - 120 = 0
  · rw [if_pos hexcess, if_pos (.inl hexcess)]
  · rw [if_neg hexcess]
    dsimp only
    by_cases hgivers : row.countP (gives (total row - 120)) = 0
    · rw [if_pos hgivers, if_pos (.inr hgivers)]
    · rw [if_neg hgivers, if_neg (not_or.mpr ⟨hexcess, hgivers⟩)]
      rfl

theorem fixed_given (excess share : ℚ) (row : List (Cell ℚ)) :
    fixed (row.map (given excess share)) = fixed row := by
  unfold fixed
  rw [List.map_map]
  refine List.map_congr_left fun cell _ => ?_
  unfold given gives
  cases hcell : cell.2 <;> simp [hcell]
  split <;> simp [hcell]

theorem fixed_spread : ∀ (passes : Nat) (row : List (Cell ℚ)), fixed (spread passes row) = fixed row
  | 0, _ => rfl
  | pass + 1, row => by
    rw [spread_succ]
    split
    · rfl
    · rw [fixed_spread pass, fixed_given]

theorem given_floor {excess share : ℚ} (hshare : excess ≤ 0 → share ≤ 0) {cell : Cell ℚ} (h : 1 ≤ cell.1) :
    1 ≤ (given excess share cell).1 := by
  unfold given
  split
  · dsimp only
    split
    · exact le_max_right _ _
    · rename_i hexcess
      have := hshare (not_lt.mp hexcess)
      linarith
  · exact h

theorem share_nonpos {excess : ℚ} (givers : Nat) (h : excess ≤ 0) : excess / givers ≤ 0 :=
  div_nonpos_of_nonpos_of_nonneg h (Nat.cast_nonneg _)

/-- No width goes below the floor. -/
theorem spread_floor : ∀ (passes : Nat) {row : List (Cell ℚ)}, (∀ cell ∈ row, 1 ≤ cell.1) →
    ∀ cell ∈ spread passes row, 1 ≤ cell.1
  | 0, _, h => h
  | pass + 1, row, h => by
    rw [spread_succ]
    split
    · exact h
    · refine spread_floor pass fun cell hcell => ?_
      obtain ⟨before, hbefore, rfl⟩ := List.mem_map.mp hcell
      exact given_floor (share_nonpos _) (h before hbefore)

/-- What the givers give where none of them stops at the floor. -/
theorem total_given (excess share : ℚ) : ∀ row : List (Cell ℚ),
    (∀ cell ∈ row, gives excess cell = true → 0 < excess → 1 ≤ cell.1 - share) →
      total (row.map (given excess share)) = total row - row.countP (gives excess) * share
  | [], _ => by simp [total]
  | cell :: rest, h => by
    obtain ⟨hcell, hrest⟩ := List.forall_mem_cons.mp h
    have ih := total_given excess share rest hrest
    unfold total at ih ⊢
    rw [List.map_cons, List.map_cons, List.sum_cons, ih, List.map_cons, List.sum_cons, List.countP_cons]
    unfold given
    by_cases hgives : gives excess cell = true
    · rw [if_pos hgives, if_pos hgives]
      by_cases hexcess : 0 < excess
      · rw [if_pos hexcess, max_eq_left (hcell hgives hexcess)]
        push_cast
        ring
      · rw [if_neg hexcess]
        push_cast
        ring
    · rw [if_neg hgives, if_neg hgives]
      push_cast
      ring

/-- A pass that stops a width at the floor leaves fewer that give. -/
theorem countP_given {excess excess' share : ℚ} (hexcess : 0 < excess) (hshare : 0 ≤ share) (hexcess' : 0 < excess') :
    ∀ row : List (Cell ℚ), row.countP (fun cell => gives excess' (given excess share cell)) ≤ row.countP (gives excess) ∧
      ((∃ cell ∈ row, gives excess cell = true ∧ cell.1 - share < 1) →
        row.countP (fun cell => gives excess' (given excess share cell)) < row.countP (gives excess))
  | [] => by simp
  | cell :: rest => by
    obtain ⟨hle, hlt⟩ := countP_given hexcess hshare hexcess' rest
    have hgives : gives excess' (given excess share cell) = true → gives excess cell = true := by
      unfold given
      split
      · rename_i h
        exact fun _ => h
      · unfold gives
        simp only [not_le.mpr hexcess, not_le.mpr hexcess', decide_false, Bool.false_or]
        exact id
    rw [List.countP_cons, List.countP_cons]
    refine ⟨?_, ?_⟩
    · by_cases h : gives excess' (given excess share cell) = true
      · rw [if_pos h, if_pos (hgives h)]
        omega
      · rw [if_neg h]
        omega
    · rintro ⟨stopped, hmem, hstopped, hfloor⟩
      rcases List.mem_cons.mp hmem with rfl | hmem
      · have hno : ¬ gives excess' (given excess share stopped) = true := by
          unfold given
          rw [if_pos hstopped, if_pos hexcess, max_eq_right hfloor.le]
          simp [gives, not_le.mpr hexcess']
        rw [if_neg hno, if_pos hstopped]
        omega
      · have := hlt ⟨stopped, hmem, hstopped, hfloor⟩
        by_cases h : gives excess' (given excess share cell) = true
        · rw [if_pos h, if_pos (hgives h)]
          omega
        · rw [if_neg h]
          omega

/-- **The passes**: they come to 120, or every adjusted width is at the floor and the row is still too wide. -/
theorem spread_total : ∀ (passes : Nat) {row : List (Cell ℚ)}, (∀ cell ∈ row, 1 ≤ cell.1) →
    (∃ cell ∈ row, cell.2 = true) → 0 < passes → row.countP (gives 1) < passes →
      total (spread passes row) = 120 ∨
        120 < total (spread passes row) ∧ ∀ cell ∈ spread passes row, cell.2 = true → cell.1 = 1
  | 0, _, _, _, h, _ => by cases h
  | pass + 1, row, hfloor, hadjusted, _, hcount => by
    have hnone : ∀ {excess : ℚ}, 0 < excess → ∀ cell, gives excess cell = gives 1 cell := by
      intro excess hexcess cell
      have hone : ¬ (1 : ℚ) ≤ 0 := by norm_num
      simp only [gives, not_le.mpr hexcess, hone]
    rw [spread_succ]
    by_cases hzero : total row - 120 = 0
    · rw [if_pos (.inl hzero)]
      exact .inl (by linarith)
    by_cases hgivers : row.countP (gives (total row - 120)) = 0
    · rw [if_pos (.inr hgivers)]
      rw [List.countP_eq_zero] at hgivers
      -- every adjusted width takes, so the row is too wide
      have hexcess : 0 < total row - 120 := by
        by_contra hno
        obtain ⟨cell, hcell, hmarked⟩ := hadjusted
        exact hgivers cell hcell (by simp [gives, hmarked, not_lt.mp hno])
      refine .inr ⟨by linarith, fun cell hcell hmarked => ?_⟩
      have hno := hgivers cell hcell
      simp only [gives, hmarked, not_le.mpr hexcess, decide_false, Bool.false_or, Bool.true_and,
        decide_eq_true_eq, not_lt] at hno
      exact le_antisymm hno (hfloor cell hcell)
    rw [if_neg (not_or.mpr ⟨hzero, hgivers⟩)]
    generalize hexcess' : total row - 120 = excess at hzero hgivers ⊢
    generalize hshare' : excess / row.countP (gives excess) = share
    have hcast : (row.countP (gives excess) : ℚ) ≠ 0 := by exact_mod_cast hgivers
    have hexact : (row.countP (gives excess) : ℚ) * share = excess := by
      rw [← hshare', mul_div_cancel₀ _ hcast]
    have hfloor' : ∀ cell ∈ row.map (given excess share), 1 ≤ cell.1 := by
      intro cell hcell
      obtain ⟨before, hbefore, rfl⟩ := List.mem_map.mp hcell
      exact given_floor (fun h => hshare' ▸ share_nonpos _ h) (hfloor before hbefore)
    by_cases hall : ∀ cell ∈ row, gives excess cell = true → 0 < excess → 1 ≤ cell.1 - share
    · have htotal : total (row.map (given excess share)) = 120 := by
        rw [total_given _ _ _ hall, hexact]
        linarith
      have hdone : spread pass (row.map (given excess share)) = row.map (given excess share) := by
        cases pass with
        | zero => rfl
        | succ pass => rw [spread_succ, if_pos (.inl (by linarith))]
      rw [hdone]
      exact .inl htotal
    · push Not at hall
      obtain ⟨cell, hcell, hgives, hexcess, hstops⟩ := hall
      have hpositive : 0 ≤ share := hshare' ▸ div_nonneg hexcess.le (Nat.cast_nonneg _)
      have hfewer := (countP_given hexcess hpositive one_pos row).2 ⟨cell, hcell, hgives, hstops⟩
      have hsame : row.countP (gives excess) = row.countP (gives 1) :=
        List.countP_congr fun cell _ => by rw [hnone hexcess]
      have hcount' : (row.map (given excess share)).countP (gives 1) < pass := by
        rw [List.countP_map]
        exact (hsame ▸ hfewer).trans_le (Nat.lt_succ_iff.mp hcount)
      refine spread_total pass hfloor' ?_ (by omega) hcount'
      obtain ⟨adjusted, hmem, hmarked⟩ := hadjusted
      refine ⟨_, List.mem_map_of_mem hmem, ?_⟩
      unfold given
      split <;> exact hmarked

end Passes

/-! ## 3. The drift -/

section Drift

theorem fixed_bump (width step : Int) : ∀ row : List (Cell Int), fixed (bump width step row) = fixed row
  | [] => rfl
  | cell :: rest => by
    rw [bump]
    split
    · rename_i h
      rw [h]
      rfl
    · unfold fixed
      rw [List.map_cons, List.map_cons]
      exact congrArg _ (fixed_bump width step rest)

theorem sum_bump {width : Int} (step : Int) : ∀ {row : List (Cell Int)}, (width, true) ∈ row →
    ((bump width step row).map Prod.fst).sum = (row.map Prod.fst).sum + step
  | cell :: rest, h => by
    rw [bump]
    split
    · rename_i heq
      rw [heq]
      simp
      ring
    · rename_i hne
      have hrest := (List.mem_cons.mp h).resolve_left fun heq => hne heq.symm
      rw [List.map_cons, List.map_cons, List.sum_cons, List.sum_cons, sum_bump step hrest]
      ring

theorem bump_floor {width step : Int} (hwidth : 1 ≤ width + step) : ∀ {row : List (Cell Int)},
    (∀ cell ∈ row, 1 ≤ cell.1) → ∀ cell ∈ bump width step row, 1 ≤ cell.1
  | [], _ => by simp [bump]
  | cell :: rest, h => by
    obtain ⟨hcell, hrest⟩ := List.forall_mem_cons.mp h
    rw [bump]
    split
    · exact List.forall_mem_cons.mpr ⟨hwidth, hrest⟩
    · exact List.forall_mem_cons.mpr ⟨hcell, bump_floor hwidth hrest⟩

/-- A step takes a width that is adjusted, and above the floor if the step is down. -/
theorem push_succ (step : Int) (drift : Nat) (row : List (Cell Int)) :
    (push step (drift + 1) row = row ∧ ∀ cell ∈ row, cell.2 = true → ¬ 0 < step ∧ cell.1 ≤ 1) ∨
      ∃ width, (width, true) ∈ row ∧ (0 < step ∨ 1 < width) ∧
        push step (drift + 1) row = push step drift (bump width step row) := by
  rw [push]
  have hcandidate : ∀ width, width ∈ (row.filter fun cell =>
      cell.2 && (decide (0 < step) || decide (1 < cell.1))).map Prod.fst → (width, true) ∈ row ∧ (0 < step ∨ 1 < width) := by
    intro width hwidth
    obtain ⟨⟨width', adjusted⟩, hcell, rfl⟩ := List.mem_map.mp hwidth
    obtain ⟨hmem, hok⟩ := List.mem_filter.mp hcell
    simp only [Bool.and_eq_true, Bool.or_eq_true, decide_eq_true_eq] at hok
    obtain ⟨rfl, hok⟩ := hok
    exact ⟨hmem, hok⟩
  generalize hcandidates : (row.filter fun cell =>
      cell.2 && (decide (0 < step) || decide (1 < cell.1))).map Prod.fst = candidates at hcandidate ⊢
  have hnone : candidates = [] → ∀ cell ∈ row, cell.2 = true → ¬ 0 < step ∧ cell.1 ≤ 1 := by
    intro hempty cell hcell hmarked
    rw [hempty, List.map_eq_nil_iff, List.filter_eq_nil_iff] at hcandidates
    have hno := hcandidates cell hcell
    rw [hmarked, Bool.true_and, Bool.or_eq_true, not_or] at hno
    exact ⟨by simpa using hno.1, by simpa using hno.2⟩
  split
  · rename_i hbest
    refine .inl ⟨rfl, hnone ?_⟩
    split at hbest
    · exact List.min?_eq_none_iff.mp hbest
    · exact List.max?_eq_none_iff.mp hbest
  · rename_i width hbest
    have hmem : width ∈ candidates := by
      split at hbest
      · exact List.min?_mem hbest
      · exact List.max?_mem hbest
    exact .inr ⟨width, (hcandidate width hmem).1, (hcandidate width hmem).2, rfl⟩

theorem fixed_push (step : Int) : ∀ (drift : Nat) (row : List (Cell Int)), fixed (push step drift row) = fixed row
  | 0, _ => rfl
  | drift + 1, row => by
    rcases push_succ step drift row with ⟨hsame, -⟩ | ⟨width, -, -, hstep⟩
    · rw [hsame]
    · rw [hstep, fixed_push step drift, fixed_bump]

theorem push_floor {step : Int} (hstep : -1 ≤ step) : ∀ (drift : Nat) {row : List (Cell Int)},
    (∀ cell ∈ row, 1 ≤ cell.1) → ∀ cell ∈ push step drift row, 1 ≤ cell.1
  | 0, _, h => h
  | drift + 1, row, h => by
    rcases push_succ step drift row with ⟨hsame, -⟩ | ⟨width, hmem, hok, hpush⟩
    · rw [hsame]
      exact h
    · rw [hpush]
      have hwidth := h _ hmem
      dsimp only at hwidth
      exact push_floor hstep drift (bump_floor (by omega) h)

theorem push_up : ∀ (drift : Nat) {row : List (Cell Int)}, (∃ cell ∈ row, cell.2 = true) →
    ((push 1 drift row).map Prod.fst).sum = (row.map Prod.fst).sum + drift
  | 0, _, _ => by simp [push]
  | drift + 1, row, h => by
    rcases push_succ 1 drift row with ⟨-, hnone⟩ | ⟨width, hmem, -, hpush⟩
    · obtain ⟨cell, hcell, hmarked⟩ := h
      exact absurd one_pos (hnone cell hcell hmarked).1
    · have hmarked : ∃ cell ∈ bump width 1 row, cell.2 = true := by
        have hfixed := fixed_bump width 1 row
        have hnone : none ∈ fixed row := List.mem_map.mpr ⟨_, hmem, rfl⟩
        rw [← hfixed] at hnone
        obtain ⟨cell, hcell, hcell'⟩ := List.mem_map.mp hnone
        refine ⟨cell, hcell, ?_⟩
        by_contra hno
        simp [hno] at hcell'
      rw [hpush, push_up drift hmarked, sum_bump 1 hmem]
      push_cast
      ring

/-- Steps down reach their number if the adjusted widths can give that much. -/
theorem push_down : ∀ (drift : Nat) {row : List (Cell Int)},
    least (Int.cast : Int → ℚ) row ≤ (row.map Prod.fst).sum - drift →
      ((push (-1) drift row).map Prod.fst).sum = (row.map Prod.fst).sum - drift
  | 0, _, _ => by simp [push]
  | drift + 1, row, h => by
    rcases push_succ (-1) drift row with ⟨hsame, hnone⟩ | ⟨width, hmem, -, hpush⟩
    · have hsum := sum_floored (Int.cast : Int → ℚ) fun cell hcell hmarked => by
        exact_mod_cast (hnone cell hcell hmarked).2
      rw [← Function.comp_def, ← List.map_map, ← Int.cast_list_sum] at hsum
      have hdrift : (0 : ℚ) ≤ drift := Nat.cast_nonneg _
      rw [Nat.cast_succ] at h
      linarith
    · have hsum := sum_bump (-1) hmem
      have hleast : least (Int.cast : Int → ℚ) (bump width (-1) row) = least (Int.cast : Int → ℚ) row := by
        rw [least_eq, least_eq, fixed_bump]
      rw [hpush, push_down drift ?_, hsum]
      · push_cast
        ring
      · rw [hleast, hsum]
        push_cast at h ⊢
        linarith

end Drift

/-! ## 4. Widths that are resolved -/

section Resolved

variable {widths : List ℚ} {keepIndices : List Int} {adjustMode : AdjustMode}

/-- The row that the passes begin with. -/
def start (widths : List ℚ) (keepIndices : List Int) (adjustMode : AdjustMode) : List (Cell ℚ) :=
  marked widths (adjustedIndices widths.length keepIndices adjustMode)

/-- The row after the passes. -/
def settled (widths : List ℚ) (keepIndices : List Int) (adjustMode : AdjustMode) : List (Cell ℚ) :=
  spread (widths.length + 1) (start widths keepIndices adjustMode)

def pushed (widths : List ℚ) (keepIndices : List Int) (adjustMode : AdjustMode) : List (Cell Int) :=
  let row := rounded (settled widths keepIndices adjustMode)
  let drift := round (total (settled widths keepIndices adjustMode)) - (row.map Prod.fst).sum
  push drift.sign drift.natAbs row

theorem resolveWidths_eq (hne : widths ≠ []) (hfull : ¬ Full widths) :
    resolveWidths widths keepIndices adjustMode =
      (pushed widths keepIndices adjustMode).map fun cell => (cell.1 : ℚ) := by
  unfold resolveWidths
  rw [if_neg hne, if_neg hfull]
  rfl

theorem start_floor : ∀ cell ∈ start widths keepIndices adjustMode, 1 ≤ cell.1 := by
  intro cell hcell
  obtain ⟨entry, -, rfl⟩ := List.mem_map.mp hcell
  exact le_max_right _ _

theorem rounded_floor : ∀ cell ∈ rounded (settled widths keepIndices adjustMode), 1 ≤ cell.1 := by
  intro cell hcell
  obtain ⟨before, hbefore, rfl⟩ := List.mem_map.mp hcell
  have hfloor := spread_floor _ start_floor before hbefore
  refine Int.le_floor.mpr ?_
  push_cast
  linarith

theorem mem_adjustedIndices {n : Nat} {index : Nat} (h : index ∈ adjustedIndices n keepIndices adjustMode) :
    index < n := by
  have hor : ∀ adjusted : List Nat, (∀ index ∈ adjusted, index < n) →
      index ∈ (if adjusted = [] then List.range n else adjusted) → index < n := by
    intro adjusted hadjusted hindex
    split at hindex
    · exact List.mem_range.mp hindex
    · exact hadjusted index hindex
  refine hor _ (fun index hindex => ?_) h
  split at hindex
  · exact List.mem_range.mp hindex
  · cases adjustMode with
    | after => exact List.mem_range.mp (List.mem_of_mem_drop hindex)
    | other => exact List.mem_range.mp (List.mem_filter.mp hindex).1

theorem exists_adjusted (hne : widths ≠ []) : ∃ cell ∈ start widths keepIndices adjustMode, cell.2 = true := by
  have hrange : List.range widths.length ≠ [] := by
    rw [ne_eq, List.range_eq_nil, List.length_eq_zero_iff]
    exact hne
  have hsome : adjustedIndices widths.length keepIndices adjustMode ≠ [] := by
    have hor : ∀ adjusted : List Nat, (if adjusted = [] then List.range widths.length else adjusted) ≠ [] := by
      intro adjusted
      split
      · exact hrange
      · rename_i hadjusted
        exact hadjusted
    exact hor _
  obtain ⟨index, hindex⟩ := List.exists_mem_of_ne_nil _ hsome
  have hlt := mem_adjustedIndices hindex
  refine ⟨(max widths[index] 1, (adjustedIndices widths.length keepIndices adjustMode).contains index), ?_, ?_⟩
  · exact List.mem_map.mpr ⟨(widths[index], index), by simp [List.mk_mem_zipIdx_iff_getElem?], rfl⟩
  · simpa using hindex

theorem exists_rounded (hne : widths ≠ []) :
    ∃ cell ∈ rounded (settled widths keepIndices adjustMode), cell.2 = true := by
  obtain ⟨cell, hcell, hmarked⟩ := @exists_adjusted widths keepIndices adjustMode hne
  have hnone : none ∈ fixed (start widths keepIndices adjustMode) := by
    refine List.mem_map.mpr ⟨cell, hcell, ?_⟩
    rw [hmarked]
    rfl
  rw [← fixed_spread (widths.length + 1)] at hnone
  obtain ⟨cell', hcell', hnone⟩ := List.mem_map.mp hnone
  refine ⟨_, List.mem_map_of_mem hcell', ?_⟩
  by_contra hno
  simp [hno] at hnone

theorem round_intCast (m : Int) : round m = m := by
  unfold round
  rw [Int.floor_intCast_add]
  norm_num

/-- **No width is below the floor.** -/
theorem resolveWidths_floor : ∀ width ∈ resolveWidths widths keepIndices adjustMode, 1 ≤ width := by
  by_cases hne : widths = []
  · simp [resolveWidths, hne]
  by_cases hfull : Full widths
  · unfold resolveWidths
    rw [if_neg hne, if_pos hfull]
    exact hfull.2
  rw [resolveWidths_eq hne hfull]
  intro width hwidth
  obtain ⟨cell, hcell, rfl⟩ := List.mem_map.mp hwidth
  have hstep : ∀ drift : Int, -1 ≤ drift.sign := by
    intro drift
    rcases Int.lt_trichotomy drift 0 with h | h | h
    · rw [Int.sign_eq_neg_one_of_neg h]
    · rw [h]
      decide
    · rw [Int.sign_eq_one_of_pos h]
      decide
  exact_mod_cast push_floor (hstep _) _ rounded_floor cell hcell

/-- Widths that do not fill the row come to whole units. -/
theorem resolveWidths_integer (hfull : ¬ Full widths) :
    ∀ width ∈ resolveWidths widths keepIndices adjustMode, ∃ units : Int, width = units := by
  by_cases hne : widths = []
  · simp [resolveWidths, hne]
  rw [resolveWidths_eq hne hfull]
  intro width hwidth
  obtain ⟨cell, -, rfl⟩ := List.mem_map.mp hwidth
  exact ⟨cell.1, rfl⟩

theorem fixed_rounded (row : List (Cell ℚ)) : fixed (rounded row) = (fixed row).map (Option.map round) := by
  unfold fixed rounded
  rw [List.map_map, List.map_map]
  refine List.map_congr_left fun cell _ => ?_
  cases hcell : cell.2 <;> simp [hcell]

theorem fixed_pushed : fixed (pushed widths keepIndices adjustMode) =
    (fixed (start widths keepIndices adjustMode)).map (Option.map round) := by
  unfold pushed
  rw [fixed_push, fixed_rounded, settled, fixed_spread]

/-- **The widths total 120** if the fixed ones, and the fixed ones in whole units, leave one unit for each that
    is adjusted. -/
theorem resolveWidths_sum (hne : widths ≠ []) (hexact : least id (start widths keepIndices adjustMode) ≤ 120)
    (hround : least (fun width => (round width : ℚ)) (start widths keepIndices adjustMode) ≤ 120) :
    (resolveWidths widths keepIndices adjustMode).sum = 120 := by
  by_cases hfull : Full widths
  · unfold resolveWidths
    rw [if_neg hne, if_pos hfull]
    exact hfull.1
  have hlength : (start widths keepIndices adjustMode).length = widths.length := by simp [start, marked]
  have hcount : (start widths keepIndices adjustMode).countP (gives 1) < widths.length + 1 :=
    Nat.lt_succ_iff.mpr (hlength ▸ List.countP_le_length)
  have htotal : total (settled widths keepIndices adjustMode) = 120 := by
    rcases spread_total (widths.length + 1) start_floor (exists_adjusted hne) (Nat.succ_pos _) hcount with
      htotal | ⟨hwide, hfloored⟩
    · exact htotal
    · have hle := sum_floored id fun cell hcell hmarked => (hfloored cell hcell hmarked).le
      rw [least_eq, fixed_spread, ← least_eq] at hle
      exact absurd (hle.trans hexact) (not_le.mpr hwide)
  have hleast : least (Int.cast : Int → ℚ) (rounded (settled widths keepIndices adjustMode)) ≤ 120 := by
    refine le_of_eq_of_le ?_ hround
    rw [least_eq, least_eq, fixed_rounded, settled, fixed_spread, List.map_map]
    congr 1
    refine List.map_congr_left fun width _ => ?_
    cases width <;> rfl
  have hdrift : round (total (settled widths keepIndices adjustMode)) = 120 := by
    rw [htotal]
    exact round_intCast 120
  rw [resolveWidths_eq hne hfull]
  have hsum : ((pushed widths keepIndices adjustMode).map Prod.fst).sum = 120 := by
    unfold pushed
    dsimp only
    rw [hdrift]
    generalize hrow : rounded (settled widths keepIndices adjustMode) = row at hleast ⊢
    generalize hs : (row.map Prod.fst).sum = s at *
    rcases Int.lt_trichotomy (120 - s) 0 with h | h | h
    · have hdown := @push_down (120 - s).natAbs row (by
        rw [hs]
        refine hleast.trans (le_of_eq ?_)
        have hcast : ((120 - s).natAbs : Int) = s - 120 := by omega
        have hcast' : (((120 - s).natAbs : Int) : ℚ) = s - 120 := by rw [hcast]; push_cast; ring
        rw [Int.cast_natCast] at hcast'
        rw [hcast']
        ring)
      rw [Int.sign_eq_neg_one_of_neg h, hdown, hs]
      omega
    · rw [h]
      show (row.map Prod.fst).sum = 120
      omega
    · have hup := push_up (120 - s).natAbs (hrow ▸ exists_rounded hne)
      rw [Int.sign_eq_one_of_pos h, hup, hs]
      omega
  have hcast : ((pushed widths keepIndices adjustMode).map fun cell => (cell.1 : ℚ)) =
      ((pushed widths keepIndices adjustMode).map Prod.fst).map Int.cast := by
    rw [List.map_map]
    rfl
  rw [hcast, ← Int.cast_list_sum, hsum]
  norm_num

theorem length_fixed {α : Type} (row : List (Cell α)) : (fixed row).length = row.length := List.length_map _

theorem length_resolveWidths : (resolveWidths widths keepIndices adjustMode).length = widths.length := by
  by_cases hne : widths = []
  · simp [resolveWidths, hne]
  by_cases hfull : Full widths
  · unfold resolveWidths
    rw [if_neg hne, if_pos hfull]
  rw [resolveWidths_eq hne hfull, List.length_map, ← length_fixed, fixed_pushed, List.length_map, length_fixed]
  simp [start, marked]

/-- **A fixed width** in whole units is left alone. -/
theorem resolveWidths_kept {index : Nat} {units : Int} (hunits : 1 ≤ units)
    (hwidth : widths[index]? = some (units : ℚ))
    (hfixed : index ∉ adjustedIndices widths.length keepIndices adjustMode) :
    (resolveWidths widths keepIndices adjustMode)[index]? = some (units : ℚ) := by
  have hne : widths ≠ [] := by
    rintro rfl
    cases hwidth
  by_cases hfull : Full widths
  · unfold resolveWidths
    rw [if_neg hne, if_pos hfull]
    exact hwidth
  have hstart : (fixed (start widths keepIndices adjustMode))[index]? = some (some (units : ℚ)) := by
    have hmax : max (units : ℚ) 1 = units := max_eq_left (by exact_mod_cast hunits)
    unfold fixed start marked
    rw [List.getElem?_map, List.getElem?_map, List.getElem?_zipIdx, hwidth]
    simp [hfixed, hmax]
  have hpushed : (fixed (pushed widths keepIndices adjustMode))[index]? = some (some units) := by
    rw [fixed_pushed, List.getElem?_map, hstart, Option.map_some, Option.map_some, round_intCast]
  unfold fixed at hpushed
  rw [List.getElem?_map, Option.map_eq_some_iff] at hpushed
  obtain ⟨cell, hcell, hunits⟩ := hpushed
  rw [resolveWidths_eq hne hfull, List.getElem?_map, hcell, Option.map_some]
  cases hmarked : cell.2
  · rw [hmarked] at hunits
    rw [← Option.some.inj hunits]
  · rw [hmarked] at hunits
    cases hunits

theorem least_start_of_unkept {f : ℚ → ℚ} (h : ∀ index ∈ keepIndices, index < 0) :
    least f (start widths keepIndices adjustMode) = widths.length := by
  have hall : adjustedIndices widths.length keepIndices adjustMode = List.range widths.length := by
    have hkept : (keepIndices.filter fun index => decide (0 ≤ index)) = [] := by
      rw [List.filter_eq_nil_iff]
      intro index hindex
      simpa using h index hindex
    unfold adjustedIndices
    simp only [hkept, if_true, ite_self]
  have hone : ∀ cell ∈ start widths keepIndices adjustMode, cell.2 = true := by
    intro cell hcell
    unfold start marked at hcell
    rw [hall] at hcell
    obtain ⟨⟨width, index⟩, hentry, rfl⟩ := List.mem_map.mp hcell
    have hlt := (List.mem_zipIdx hentry).2.1
    simpa using hlt
  have hleast : least f (start widths keepIndices adjustMode) =
      ((start widths keepIndices adjustMode).map fun _ => (1 : ℚ)).sum := by
    unfold least
    congr 1
    exact List.map_congr_left fun cell hcell => if_pos (hone cell hcell)
  rw [hleast, List.map_const', List.sum_replicate, nsmul_eq_mul, mul_one]
  simp [start, marked]

end Resolved

/-! ## 5. Repairs -/

/-- Scale `widths` to fill a row, keeping their proportions; the rounding drift lands on the last. -/
def filledWidths (widths : List ℚ) : List ℚ :=
  if widths = [] then []
  else
    let usable := widths.all fun width => decide (0 < width)
    let basis := if usable then widths else widths.map fun _ => 1
    let basisTotal := if usable then widths.sum else widths.length
    let scaled := basis.map fun width => round (width * 120 / basisTotal)
    let drift := 120 - scaled.sum
    (scaled.dropLast ++ [scaled.getLastD 0 + drift]).map Int.cast

/-- A row the watcher repairs: it does not total 120, or a width is not positive. -/
def Broken (widths : List ℚ) : Prop := widths ≠ [] ∧ (widths.sum ≠ 120 ∨ ∃ width ∈ widths, width ≤ 0)

instance (widths : List ℚ) : Decidable (Broken widths) := inferInstanceAs (Decidable (_ ∧ _))

/-- One turn of the watcher. -/
def repair (widths : List ℚ) : List ℚ := if Broken widths then filledWidths widths else widths

/-- Whole widths of at least 1 that total 120. -/
def Drawable (widths : List ℚ) : Prop := (∀ width ∈ widths, ∃ units : Int, 1 ≤ units ∧ width = units) ∧ widths.sum = 120

/-- All but the last of the widths of a repair, and the last. -/
def repaired (front : List Int) : List ℚ := (front ++ [120 - front.sum]).map Int.cast

def shares (widths : List ℚ) : List Int := widths.dropLast.map fun width => round (width * 120 / widths.sum)

/-- A row of so many widgets can be dealt out evenly. -/
def DealtEvenly (n : Nat) : Prop := (n - 1 : Int) * round (120 / n) < 120

instance (n : Nat) : Decidable (DealtEvenly n) := inferInstanceAs (Decidable (_ < _))

section Repair

variable {widths : List ℚ}

theorem repaired_of_scaled {scaled : List Int} (hne : scaled ≠ []) :
    (scaled.dropLast ++ [scaled.getLastD 0 + (120 - scaled.sum)]).map Int.cast = repaired scaled.dropLast := by
  obtain ⟨front, last, rfl⟩ := (List.eq_nil_or_concat scaled).resolve_left hne
  unfold repaired
  simp
  ring

theorem filledWidths_usable (hne : widths ≠ []) (husable : ∀ width ∈ widths, 0 < width) :
    filledWidths widths = repaired (shares widths) := by
  have hall : (widths.all fun width => decide (0 < width)) = true := by simpa using husable
  have hscaled : widths.map (fun width => round (width * 120 / widths.sum)) ≠ [] := by simpa using hne
  unfold filledWidths shares
  rw [if_neg hne]
  simp only [hall, if_true]
  rw [repaired_of_scaled hscaled, List.map_dropLast]

theorem filledWidths_unusable (hne : widths ≠ []) (hunusable : ∃ width ∈ widths, width ≤ 0) :
    filledWidths widths = repaired (List.replicate (widths.length - 1) (round (120 / widths.length))) := by
  have hall : (widths.all fun width => decide (0 < width)) = false := by
    obtain ⟨width, hwidth, hle⟩ := hunusable
    rw [List.all_eq_false]
    exact ⟨width, hwidth, by simpa using hle⟩
  have hscaled : (widths.map fun _ => (1 : ℚ)).map (fun width => round (width * 120 / widths.length)) ≠ [] := by
    simpa using hne
  unfold filledWidths
  rw [if_neg hne]
  simp only [hall, Bool.false_eq_true, if_false]
  rw [repaired_of_scaled hscaled, List.map_map]
  congr 1
  rw [← List.map_dropLast, Function.comp_def, List.map_const', List.length_dropLast, one_mul]

theorem repaired_sum (front : List Int) : (repaired front).sum = 120 := by
  unfold repaired
  rw [← Int.cast_list_sum, List.sum_append, List.sum_singleton]
  push_cast
  ring

/-- **A repair can be drawn** if every share is a unit at least and the last is left one. -/
theorem drawable_repaired (front : List Int) :
    Drawable (repaired front) ↔ (∀ share ∈ front, 1 ≤ share) ∧ front.sum < 120 := by
  unfold Drawable
  rw [and_iff_left (repaired_sum front)]
  unfold repaired
  constructor
  · intro h
    have hunits : ∀ share ∈ front ++ [120 - front.sum], 1 ≤ share := by
      intro share hshare
      obtain ⟨units, hpositive, hunits⟩ := h _ (List.mem_map_of_mem hshare)
      have hshare' : share = units := by exact_mod_cast hunits
      omega
    refine ⟨fun share hshare => hunits share (List.mem_append_left _ hshare), ?_⟩
    have hlast := hunits (120 - front.sum) (by simp)
    omega
  · rintro ⟨hfront, hlast⟩ width hwidth
    obtain ⟨share, hshare, rfl⟩ := List.mem_map.mp hwidth
    refine ⟨share, ?_, rfl⟩
    rcases List.mem_append.mp hshare with hshare | hshare
    · exact hfront share hshare
    · obtain rfl := List.mem_singleton.mp hshare
      omega

theorem broken_repaired {front : List Int} (h : ¬ Drawable (repaired front)) :
    repaired front ≠ [] ∧ ∃ width ∈ repaired front, width ≤ 0 := by
  refine ⟨by simp [repaired], ?_⟩
  by_contra hno
  push Not at hno
  refine h ⟨fun width hwidth => ?_, repaired_sum front⟩
  have hpositive := hno width hwidth
  obtain ⟨share, -, rfl⟩ := List.mem_map.mp hwidth
  exact ⟨share, by exact_mod_cast hpositive, rfl⟩

theorem not_broken_of_drawable (h : Drawable widths) : ¬ Broken widths := by
  rintro ⟨-, hsum | ⟨width, hwidth, hle⟩⟩
  · exact hsum h.2
  · obtain ⟨units, hpositive, rfl⟩ := h.1 width hwidth
    have : (1 : ℚ) ≤ units := by exact_mod_cast hpositive
    linarith

theorem drawable_of_not_broken (hne : widths ≠ []) (hbroken : ¬ Broken widths) :
    Drawable widths ↔ ∀ width ∈ widths, ∃ units : Int, width = units := by
  constructor
  · intro h width hwidth
    obtain ⟨units, -, hunits⟩ := h.1 width hwidth
    exact ⟨units, hunits⟩
  · intro h
    unfold Broken at hbroken
    push Not at hbroken
    obtain ⟨hsum, hpositive⟩ := hbroken hne
    refine ⟨fun width hwidth => ?_, hsum⟩
    obtain ⟨units, rfl⟩ := h width hwidth
    have hwidth' := hpositive _ hwidth
    exact ⟨units, by exact_mod_cast hwidth', rfl⟩

/-- A share is a unit at least where the width is a 240th of the total. -/
theorem one_le_round_iff {x : ℚ} : 1 ≤ round x ↔ 1 / 2 ≤ x := by
  unfold round
  rw [Int.le_floor]
  push_cast
  constructor <;> intro h <;> linarith

theorem one_le_share_iff {width sum : ℚ} (hsum : 0 < sum) : 1 ≤ round (width * 120 / sum) ↔ sum ≤ 240 * width := by
  rw [one_le_round_iff, le_div_iff₀ hsum]
  constructor <;> intro h <;> linarith

/-- A row dealt out evenly. -/
def dealt (n : Nat) : List ℚ := repaired (List.replicate (n - 1) (round (120 / n)))

theorem drawable_dealt {n : Nat} (hn : 0 < n) (hle : n ≤ 120) : Drawable (dealt n) ↔ DealtEvenly n := by
  have hshare : 1 ≤ round (120 / (n : ℚ)) := by
    have hn' : (0 : ℚ) < n := by exact_mod_cast hn
    have hle' : (n : ℚ) ≤ 120 := by exact_mod_cast hle
    rw [one_le_round_iff, le_div_iff₀ hn']
    linarith
  unfold dealt DealtEvenly
  rw [drawable_repaired, List.sum_replicate, nsmul_eq_mul, Nat.cast_sub hn, Nat.cast_one]
  refine and_iff_right fun share hmem => ?_
  rw [List.eq_of_mem_replicate hmem]
  exact hshare

theorem length_repaired (front : List Int) : (repaired front).length = front.length + 1 := by simp [repaired]

/-- A repair that cannot be drawn is dealt out evenly next. -/
theorem repair_repaired {front : List Int} (h : ¬ Drawable (repaired front)) :
    repair (repaired front) = dealt (front.length + 1) := by
  obtain ⟨hne, hwidth⟩ := broken_repaired h
  unfold repair
  rw [if_pos ⟨hne, .inr hwidth⟩, filledWidths_unusable hne hwidth, length_repaired]
  rfl

theorem repair_of_drawable (h : Drawable widths) : repair widths = widths := if_neg (not_broken_of_drawable h)

theorem exists_repair_of_fixed (hfix : repair widths = widths) :
    (∃ k, Drawable (repair^[k] widths)) ↔ Drawable widths := by
  refine ⟨?_, fun h => ⟨0, h⟩⟩
  rintro ⟨k, hk⟩
  rwa [Function.iterate_fixed hfix] at hk

theorem exists_repair_succ (h : ¬ Drawable widths) :
    (∃ k, Drawable (repair^[k] widths)) ↔ ∃ k, Drawable (repair^[k] (repair widths)) := by
  constructor
  · rintro ⟨k, hk⟩
    cases k with
    | zero => exact absurd hk h
    | succ k => exact ⟨k, hk⟩
  · rintro ⟨k, hk⟩
    exact ⟨k + 1, hk⟩

/-- **After a repair** the watcher comes to a drawable row at once, or dealing the row out evenly does. -/
theorem exists_repair_repaired {front : List Int} (hle : front.length + 1 ≤ 120) :
    (∃ k, Drawable (repair^[k] (repaired front))) ↔ Drawable (repaired front) ∨ DealtEvenly (front.length + 1) := by
  by_cases hdrawable : Drawable (repaired front)
  · exact iff_of_true ⟨0, hdrawable⟩ (.inl hdrawable)
  rw [exists_repair_succ hdrawable, repair_repaired hdrawable, or_iff_right hdrawable,
    ← drawable_dealt (Nat.succ_pos _) hle]
  by_cases hdealt : Drawable (dealt (front.length + 1))
  · exact exists_repair_of_fixed (repair_of_drawable hdealt)
  · refine exists_repair_of_fixed ?_
    unfold dealt at hdealt ⊢
    rw [repair_repaired hdealt, List.length_replicate]
    rfl

theorem drawable_shares (husable : ∀ width ∈ widths, 0 < width) (hne : widths ≠ []) :
    Drawable (repaired (shares widths)) ↔
      (∀ width ∈ widths.dropLast, widths.sum ≤ 240 * width) ∧ (shares widths).sum < 120 := by
  have hsum : 0 < widths.sum := by
    obtain ⟨first, rest, rfl⟩ := List.exists_cons_of_ne_nil hne
    rw [List.sum_cons]
    have hrest : 0 ≤ rest.sum := List.sum_nonneg fun width hwidth => (husable width (List.mem_cons_of_mem _ hwidth)).le
    linarith [husable first List.mem_cons_self]
  rw [drawable_repaired]
  refine and_congr_left fun _ => ?_
  unfold shares
  rw [List.forall_mem_map]
  exact forall₂_congr fun width _ => one_le_share_iff hsum

/-- **The repair of a row.** The watcher comes to a drawable row exactly if the row is whole already, or it is
    broken and its shares leave the last width a unit, or a row of its length can be dealt out evenly. Positive whole
    widths within 120 are filled to a drawable row exactly if their shares leave the last a unit. -/
theorem repair_converges_iff (widths : List ℚ) (hne : widths ≠ []) :
    (widths.length ≤ 120 →
      ((∃ k, Drawable (repair^[k] widths)) ↔
        (¬ Broken widths → ∀ width ∈ widths, ∃ units : Int, width = units) ∧
        (Broken widths → DealtEvenly widths.length ∨
          (∀ width ∈ widths, 0 < width) ∧ (∀ width ∈ widths.dropLast, widths.sum ≤ 240 * width) ∧
            (shares widths).sum < 120))) ∧
    ((∀ width ∈ widths, ∃ units : Int, 1 ≤ units ∧ width = units) → widths.sum ≤ 120 →
      (Drawable (filledWidths widths) ↔ (shares widths).sum < 120)) := by
  constructor
  · intro hle
    by_cases hbroken : Broken widths
    · rw [and_iff_right fun hno => absurd hbroken hno, forall_prop_of_true hbroken]
      have hdrawable : ¬ Drawable widths := fun h => not_broken_of_drawable h hbroken
      have hpositive := List.length_pos_iff.mpr hne
      rw [exists_repair_succ hdrawable]
      have hrepair : repair widths = filledWidths widths := if_pos hbroken
      rw [hrepair]
      by_cases husable : ∀ width ∈ widths, 0 < width
      · have hlength : (shares widths).length + 1 = widths.length := by
          simp [shares]
          omega
        rw [filledWidths_usable hne husable, exists_repair_repaired (by omega), hlength, drawable_shares husable hne,
          or_comm, and_iff_right husable]
      · have hunusable : ∃ width ∈ widths, width ≤ 0 := by
          push Not at husable
          exact husable
        have hlength : (List.replicate (widths.length - 1) (round (120 / widths.length))).length + 1 =
            widths.length := by
          rw [List.length_replicate]
          omega
        rw [filledWidths_unusable hne hunusable, exists_repair_repaired (by omega), hlength]
        have hdealt : Drawable (repaired (List.replicate (widths.length - 1) (round (120 / widths.length)))) ↔
            DealtEvenly widths.length := drawable_dealt hpositive hle
        rw [hdealt, or_self, or_iff_left fun h => husable h.1]
    · rw [forall_prop_of_true hbroken, and_iff_left fun h => absurd h hbroken,
        exists_repair_of_fixed (if_neg hbroken), drawable_of_not_broken hne hbroken]
  · intro hunits hsum
    have husable : ∀ width ∈ widths, 0 < width := by
      intro width hwidth
      obtain ⟨units, hpositive, rfl⟩ := hunits width hwidth
      exact_mod_cast hpositive
    rw [filledWidths_usable hne husable, drawable_shares husable hne]
    refine and_iff_right fun width hwidth => ?_
    obtain ⟨units, hpositive, rfl⟩ := hunits width (List.mem_of_mem_dropLast hwidth)
    have hone : (1 : ℚ) ≤ units := by exact_mod_cast hpositive
    linarith

/-- A row with a negative width comes to one that can be drawn, and three whole widths are filled. -/
theorem negative_width_repaired :
    (∃ k, Drawable (repair^[k] [-5, 10, 200])) ∧ Drawable (filledWidths [10, 20, 30]) := by
  refine ⟨((repair_converges_iff _ (by simp)).1 (by simp)).mpr ⟨fun h => ?_, fun _ => .inl (by decide +kernel)⟩,
    ((repair_converges_iff _ (by simp)).2 ?_ (by norm_num)).mpr (by decide +kernel)⟩
  · exact absurd (by decide +kernel) h
  · intro width hwidth
    simp only [List.mem_cons, List.not_mem_nil, or_false] at hwidth
    rcases hwidth with rfl | rfl | rfl
    · exact ⟨10, by omega, by norm_num⟩
    · exact ⟨20, by omega, by norm_num⟩
    · exact ⟨30, by omega, by norm_num⟩

/-- Sixteen widgets of 7 units: the last is left nothing, and dealing the row out evenly leaves it nothing again. -/
theorem sixteen_sevens : (∀ k, ¬ Drawable (repair^[k] (List.replicate 16 7))) ∧
    ¬ Drawable (filledWidths (List.replicate 16 7)) := by
  have hfirst : repair (List.replicate 16 7) = List.replicate 15 8 ++ [0] := by decide +kernel
  have hfilled : filledWidths (List.replicate 16 7) = List.replicate 15 8 ++ [0] := by decide +kernel
  have hstuck : repair (List.replicate 15 8 ++ [0]) = List.replicate 15 8 ++ [0] := by decide +kernel
  have hzero : ¬ Drawable (List.replicate 15 8 ++ [0]) := by
    rintro ⟨hunits, -⟩
    obtain ⟨units, hpositive, hunits⟩ := hunits 0 (by simp)
    have hone : (1 : ℚ) ≤ units := by exact_mod_cast hpositive
    linarith
  refine ⟨fun k => ?_, by rw [hfilled]; exact hzero⟩
  cases k with
  | zero =>
    rintro ⟨-, hsum⟩
    norm_num at hsum
  | succ k =>
    rw [Function.iterate_succ_apply, hfirst, Function.iterate_fixed hstuck]
    exact hzero

end Repair

end Ceres.Console.Widths
