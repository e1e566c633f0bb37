/-
  File:      Ceres/Library/Page.lean
  Subject:   PAGES OF AN ORDERED RESULT, AND THE MERGE OF LEADING ROWS.

  An engine asked for rows by a sort key may return rows of one key in any order. A page is therefore
  a relation: the rows from `offset` on, `limit` of them, of SOME arrangement by the key.

  * `IsPage key rows limit offset page` -- the page is one of those;
  * `IsPage.keys_eq`, `IsPage.eq_of_separated` -- two pages of the same rows agree up to ties;
  * **`IsPage.of_merged`** -- a page of merged leading rows is a page of all the rows, when each group
    offers as many rows as the page reaches past.
-/
import Mathlib.Data.List.Sort
import Mathlib.Order.MinMax

namespace Ceres.Library

open scoped List

variable {α K : Type} [LinearOrder K] {key : α → K}

/-- The page is the rows from `offset` on, `limit` of them, of some arrangement by the key. -/
def IsPage (key : α → K) (rows : List α) (limit offset : Nat) (page : List α) : Prop :=
  ∃ arranged : List α, arranged.Perm rows ∧ arranged.Pairwise (fun x y => key x ≤ key y) ∧
    page = (arranged.drop offset).take limit

/-! ## 1. One page -/

theorem IsPage.subperm {rows page : List α} {limit offset : Nat}
    (h : IsPage key rows limit offset page) : page.Subperm rows := by
  obtain ⟨arranged, hperm, -, rfl⟩ := h
  have hsub : ((arranged.drop offset).take limit).Sublist arranged :=
    (List.take_sublist _ _).trans (List.drop_sublist _ _)
  exact hsub.subperm.trans hperm.subperm

theorem IsPage.perm {rows rows' page : List α} {limit offset : Nat} (hperm : rows.Perm rows')
    (h : IsPage key rows limit offset page) : IsPage key rows' limit offset page := by
  obtain ⟨arranged, harranged, hsorted, rfl⟩ := h
  exact ⟨arranged, harranged.trans hperm, hsorted, rfl⟩

/-- An arrangement. -/
def arrange (key : α → K) (rows : List α) : List α :=
  rows.mergeSort fun x y => decide (key x ≤ key y)

theorem arrange_perm (key : α → K) (rows : List α) : (arrange key rows).Perm rows :=
  List.mergeSort_perm _ _

theorem arrange_pairwise (key : α → K) (rows : List α) :
    (arrange key rows).Pairwise fun x y => key x ≤ key y := by
  have h := @List.pairwise_mergeSort α (fun x y => decide (key x ≤ key y))
    (fun x y z => by simpa using le_trans) (fun x y => by simpa using le_total _ _) rows
  simpa [arrange] using h

theorem exists_isPage (key : α → K) (rows : List α) (limit offset : Nat) :
    ∃ page, IsPage key rows limit offset page :=
  ⟨_, arrange key rows, arrange_perm key rows, arrange_pairwise key rows, rfl⟩

/-! ## 2. Two pages of the same rows -/

section Two

variable {rows page page' : List α} {limit offset : Nat}

theorem IsPage.keys_eq (h : IsPage key rows limit offset page)
    (h' : IsPage key rows limit offset page') : page.map key = page'.map key := by
  obtain ⟨arranged, hperm, hsorted, rfl⟩ := h
  obtain ⟨arranged', hperm', hsorted', rfl⟩ := h'
  have heq : arranged.map key = arranged'.map key :=
    ((hperm.trans hperm'.symm).map key).eq_of_pairwise' (List.pairwise_map.mpr hsorted)
      (List.pairwise_map.mpr hsorted')
  simp only [List.map_take, List.map_drop, heq]

theorem IsPage.eq_of_separated (hsep : ∀ x ∈ rows, ∀ y ∈ rows, key x = key y → x = y)
    (h : IsPage key rows limit offset page) (h' : IsPage key rows limit offset page') : page = page' := by
  obtain ⟨arranged, hperm, hsorted, rfl⟩ := h
  obtain ⟨arranged', hperm', hsorted', rfl⟩ := h'
  have heq : arranged = arranged' := by
    refine List.Perm.eq_of_pairwise (fun x y hx hy hxy hyx => ?_) hsorted hsorted'
      (hperm.trans hperm'.symm)
    exact hsep x (hperm.mem_iff.mp hx) y (hperm'.mem_iff.mp hy) (le_antisymm hxy hyx)
  rw [heq]

end Two

/-! ## 3. Merging leading rows -/

/-- What a group's leading rows leave out comes behind all of them, and there are `depth` of those. -/
theorem IsPage.rest {group head : List α} {depth : Nat} (h : IsPage key group depth 0 head) :
    ∃ rest : List α, (head ++ rest).Perm group ∧
      ∀ y ∈ rest, head.length = depth ∧ ∀ x ∈ head, key x ≤ key y := by
  obtain ⟨arranged, hperm, hsorted, rfl⟩ := h
  refine ⟨arranged.drop depth, ?_, fun y hy => ⟨?_, fun x hx => ?_⟩⟩
  · rw [List.drop_zero, List.take_append_drop]
    exact hperm
  · have hlt : depth < arranged.length := by
      by_contra hle
      rw [List.drop_eq_nil_of_le (by omega)] at hy
      exact List.not_mem_nil hy
    simp [hlt.le]
  · rw [List.drop_zero] at hx
    rw [← List.take_append_drop depth arranged, List.pairwise_append] at hsorted
    exact hsorted.2.2 x hx y hy

/-- What all the leading rows leave out: behind each row of it there are `depth` rows that are kept. -/
theorem leading_rest {depth : Nat} : ∀ {groups heads : List (List α)},
    List.Forall₂ (fun group head => IsPage key group depth 0 head) groups heads →
    ∃ rest : List α, (heads.flatten ++ rest).Perm groups.flatten ∧
      ∀ y ∈ rest, depth ≤ heads.flatten.countP (fun x => key x ≤ key y)
  | [], [], .nil => ⟨[], by simp, by simp⟩
  | group :: groups, head :: heads, .cons h hs => by
      obtain ⟨rest, hperm, hrest⟩ := h.rest
      obtain ⟨rests, hperms, hrests⟩ := leading_rest hs
      refine ⟨rest ++ rests, ?_, fun y hy => ?_⟩
      · rw [List.flatten_cons, List.flatten_cons]
        calc head ++ heads.flatten ++ (rest ++ rests)
            ~ head ++ rest ++ (heads.flatten ++ rests) := by
              simp only [List.append_assoc, List.perm_append_left_iff]
              exact List.perm_append_comm_assoc _ _ _
            _ ~ group ++ groups.flatten := hperm.append hperms
      · rw [List.flatten_cons, List.countP_append]
        rcases List.mem_append.mp hy with hy | hy
        · obtain ⟨hlength, hle⟩ := hrest y hy
          have hall : head.countP (fun x => key x ≤ key y) = head.length :=
            List.countP_eq_length.mpr fun x hx => by simpa using hle x hx
          omega
        · have := hrests y hy
          omega

/-- A row with `depth` rows at or before it in an arrangement comes at or behind the first `depth`. -/
theorem le_of_countP {arranged : List α} (hsorted : arranged.Pairwise fun x y => key x ≤ key y)
    {y : α} {depth : Nat} (hcount : depth ≤ arranged.countP (fun x => key x ≤ key y)) {x : α}
    (hx : x ∈ arranged.take depth) : key x ≤ key y := by
  by_contra hlt
  obtain ⟨i, hi, rfl⟩ := List.getElem_of_mem hx
  rw [List.length_take, lt_min_iff] at hi
  rw [List.getElem_take] at hlt
  -- from position `i` on no row is at or before `y`, so fewer than `depth` are
  have hnone : (arranged.drop i).countP (fun x => key x ≤ key y) = 0 := by
    rw [List.drop_eq_getElem_cons hi.2, List.countP_eq_zero]
    intro z hz hzy
    rw [← List.take_append_drop i arranged, List.pairwise_append,
      List.drop_eq_getElem_cons hi.2, List.pairwise_cons] at hsorted
    rcases List.mem_cons.mp hz with rfl | hz
    · exact hlt (by simpa using hzy)
    · exact hlt ((hsorted.2.1.1 z hz).trans (by simpa using hzy))
  have hle : (arranged.take i).countP (fun x => key x ≤ key y) ≤ i :=
    List.countP_le_length.trans (List.length_take_le _ _)
  rw [← List.take_append_drop i arranged, List.countP_append, hnone] at hcount
  omega

/-- **A page of the merged leading rows is a page of all the rows.** -/
theorem IsPage.of_merged {groups heads : List (List α)} {limit offset depth : Nat} {page : List α}
    (hheads : List.Forall₂ (fun group head => IsPage key group depth 0 head) groups heads)
    (hdepth : offset + limit ≤ depth) (h : IsPage key heads.flatten limit offset page) :
    IsPage key groups.flatten limit offset page := by
  obtain ⟨arranged, hperm, hsorted, rfl⟩ := h
  obtain ⟨rest, hrest, hcount⟩ := leading_rest hheads
  let behind := arrange key (arranged.drop depth ++ rest)
  have hbehind : behind.Perm (arranged.drop depth ++ rest) := arrange_perm _ _
  refine ⟨arranged.take depth ++ behind, ?_, ?_, ?_⟩
  · calc arranged.take depth ++ behind
        ~ arranged.take depth ++ (arranged.drop depth ++ rest) := hbehind.append_left _
        _ ~ heads.flatten ++ rest := by
          rw [← List.append_assoc, List.take_append_drop]
          exact hperm.append_right _
        _ ~ groups.flatten := hrest
  · refine List.pairwise_append.mpr ⟨hsorted.sublist (List.take_sublist _ _),
      arrange_pairwise _ _, ?_⟩
    intro x hx y hy
    rcases List.mem_append.mp (hbehind.mem_iff.mp hy) with hy | hy
    · rw [← List.take_append_drop depth arranged, List.pairwise_append] at hsorted
      exact hsorted.2.2 x hx y hy
    · refine le_of_countP hsorted ?_ hx
      rw [hperm.countP_eq]
      exact hcount y hy
  · have htake : (arranged.take depth ++ behind).take (offset + limit) = arranged.take (offset + limit) := by
      by_cases hlength : depth ≤ arranged.length
      · rw [List.take_append_of_le_length (by simp; omega), List.take_take, min_eq_left hdepth]
      · -- fewer rows than the depth: nothing was left out
        have hnil : arranged.drop depth ++ rest = [] := by
          refine List.eq_nil_iff_forall_not_mem.mpr fun y hy => ?_
          rw [List.drop_eq_nil_of_le (by omega), List.nil_append] at hy
          have hle := hcount y hy
          rw [← hperm.countP_eq] at hle
          exact hlength (hle.trans List.countP_le_length)
        have hempty : behind = [] := List.perm_nil.mp (hnil ▸ hbehind)
        rw [hempty, List.append_nil, List.take_take, min_eq_left hdepth]
    rw [List.take_drop, List.take_drop, htake]

/-! ## 4. Groups by a key -/

theorem filter_by_key {β : Type} [DecidableEq β] (group : α → β) (p : α → Bool) (rows : List α) :
    ∀ {keys : List β}, keys.Nodup → (keys.map fun k => rows.filter fun x => p x && group x = k).flatten.Perm
        (rows.filter fun x => p x && decide (group x ∈ keys))
  | [], _ => by simp
  | k :: keys, hnd => by
      obtain ⟨hk, hkeys⟩ := List.nodup_cons.mp hnd
      rw [List.map_cons, List.flatten_cons]
      have hsplit := List.filter_append_perm (fun x => decide (group x = k))
        (rows.filter fun x => p x && decide (group x ∈ k :: keys))
      refine (((filter_by_key group p rows hkeys).append_left _).trans ?_).trans hsplit
      refine List.Perm.of_eq ?_
      rw [List.filter_filter, List.filter_filter]
      congr 1
      · refine List.filter_congr fun x _ => ?_
        by_cases h : group x = k <;> simp [h]
      · refine List.filter_congr fun x _ => ?_
        by_cases h : group x = k <;> simp [h, hk]

end Ceres.Library
