/-
  File:      Ceres/Library/Cursor.lean
  Subject:   PAGING BY THE LAST KEY SEEN.

  Rows are asked for in pages: the rows beyond a key, at most `cap` of them by key, of which some are
  not shown. The next page is asked for beyond the last row shown, while the page says that it was cut.
  Rows of one key come in any order.

  * `beyond`, `Answers` -- what one request may return; `Answers.arranged`;
  * `walk` -- the requests one after the other;
  * `Whole` -- every row beyond a key that is shown, once each, by key;
  * `Paged` -- no cut page shows nothing, or parts rows shown of one key;
  * **`walk_whole_iff`** -- that is exactly when the pages are whole however they are arranged.
-/
import Ceres.Library.Page

namespace Ceres.Library.Cursor

open scoped List

variable {α β K : Type} [LinearOrder K]

/-! ## 1. Requests -/

section
variable (key : α → K) (shown : α → Option β) (name : β → K) (cap : Nat) (rows : List α)

/-- The rows beyond a key, all of them without one. -/
def beyond (after : Option K) : List α := rows.filter fun row => after.all fun k => decide (k < key row)

/-- A page: what is shown, and whether rows were left out. -/
structure Shown (β : Type) where
  entries : List β
  truncated : Bool

/-- What a request may return: of one row more than the cap, those shown among the first `cap`. -/
def Answers (after : Option K) (page : Shown β) : Prop :=
  ∃ kept, IsPage key (beyond key rows after) (cap + 1) 0 kept ∧
    page = ⟨(kept.take cap).filterMap shown, decide (cap < kept.length)⟩

def Arranged (rows arranged : List α) : Prop :=
  arranged.Perm rows ∧ arranged.Pairwise fun x y => key x ≤ key y

/-- Where the next page begins. -/
def nextAfter (after : Option K) (page : Shown β) : Option K := (page.entries.getLast?.map name).or after

/-- The requests one after the other, until a page says that it is the last. -/
def walk (answer : Option K → Shown β) : Nat → Option K → Option (List β)
  | 0, _ => none
  | fuel + 1, after =>
    if (answer after).truncated then
      (walk answer fuel (nextAfter name after (answer after))).map ((answer after).entries ++ ·)
    else some (answer after).entries

/-- Every row beyond `after` that is shown, once each, by key. -/
def Whole (after : Option K) (entries : List β) : Prop :=
  entries.Perm ((beyond key rows after).filterMap shown) ∧ entries.Pairwise fun x y => name x ≤ name y

/-- The pages end, and what they show is whole. -/
def Reaches (answer : Option K → Shown β) (after : Option K) : Prop :=
  ∃ fuel entries, walk name answer fuel after = some entries ∧ Whole key shown name rows after entries

/-- **No page parts or hides.** From `after` on, however rows of one key are arranged, a page that is cut
    shows an entry, and no row left out is shown under the name of its last. -/
inductive Paged : Option K → Prop where
  | last {after : Option K} (h : (beyond key rows after).length ≤ cap) : Paged after
  | next {after : Option K} (hcut : cap < (beyond key rows after).length)
      (h : ∀ arranged, Arranged key (beyond key rows after) arranged →
        ∃ entry, ((arranged.take cap).filterMap shown).getLast? = some entry ∧
          ∀ other ∈ (arranged.drop cap).filterMap shown, name other ≠ name entry)
      (hnext : ∀ arranged entry, Arranged key (beyond key rows after) arranged →
        ((arranged.take cap).filterMap shown).getLast? = some entry → Paged (some (name entry))) : Paged after

end

/-! ## 2. One page -/

section
variable {key : α → K} {shown : α → Option β} {name : β → K} {cap : Nat} {rows : List α}

variable {after : Option K}

theorem Answers.arranged {page : Shown β} (h : Answers key shown cap rows after page) :
    ∃ arranged, Arranged key (beyond key rows after) arranged ∧
      page = ⟨(arranged.take cap).filterMap shown, decide (cap < arranged.length)⟩ := by
  obtain ⟨kept, ⟨arranged, hperm, hsorted, rfl⟩, rfl⟩ := h
  refine ⟨arranged, ⟨hperm, hsorted⟩, ?_⟩
  have htake : ((arranged.drop 0).take (cap + 1)).take cap = arranged.take cap := by
    rw [List.drop_zero, List.take_take, Nat.min_eq_left (Nat.le_succ cap)]
  have hlength : (cap < ((arranged.drop 0).take (cap + 1)).length) = (cap < arranged.length) := by
    rw [List.drop_zero, List.length_take, eq_iff_iff]
    omega
  simp only [htake, hlength]

variable {arranged : List α}

theorem answers_of_arranged (h : Arranged key (beyond key rows after) arranged) :
    Answers key shown cap rows after ⟨(arranged.take cap).filterMap shown, decide (cap < arranged.length)⟩ := by
  refine ⟨arranged.take (cap + 1), ⟨arranged, h.1, h.2, by rw [List.drop_zero]⟩, ?_⟩
  have htake : (arranged.take (cap + 1)).take cap = arranged.take cap := by
    rw [List.take_take, Nat.min_eq_left (Nat.le_succ cap)]
  have hlength : (cap < (arranged.take (cap + 1)).length) = (cap < arranged.length) := by
    rw [List.length_take, eq_iff_iff]
    omega
  simp only [htake, hlength]

variable {answer : Option K → Shown β}

omit [LinearOrder K] in
theorem walk_append {fuel : Nat} (htruncated : (answer after).truncated = true) :
    walk name answer (fuel + 1) after =
      (walk name answer fuel (nextAfter name after (answer after))).map ((answer after).entries ++ ·) := by
  rw [walk, if_pos htruncated]

omit [LinearOrder K] in
/-- A cut page that shows nothing is asked for again and again. -/
theorem walk_none_of_empty (hentries : (answer after).entries = [])
    (htruncated : (answer after).truncated = true) : ∀ fuel, walk name answer fuel after = none
  | 0 => rfl
  | fuel + 1 => by
      have hsame : nextAfter name after (answer after) = after := by
        rw [nextAfter, hentries]
        rfl
      rw [walk_append htruncated, hsame, walk_none_of_empty hentries htruncated fuel]
      rfl

variable (hname : ∀ row entry, shown row = some entry → name entry = key row)
include hname

theorem filterMap_sorted {list : List α} (h : list.Pairwise fun x y => key x ≤ key y) :
    (list.filterMap shown).Pairwise fun x y => name x ≤ name y := by
  rw [List.pairwise_filterMap]
  refine h.imp fun {x y} hle entry hentry other hother => ?_
  rw [hname x entry hentry, hname y other hother]
  exact hle

theorem beyond_filterMap {n : K} (h : ∀ k ∈ after, k < n) : (beyond key rows (some n)).filterMap shown =
      ((beyond key rows after).filterMap shown).filter fun entry => decide (n < name entry) := by
  induction rows with
  | nil => rfl
  | cons row rest ih =>
    unfold beyond at ih ⊢
    rw [List.filter_cons, List.filter_cons]
    have hsome : ((some n).all fun k => decide (k < key row)) = decide (n < key row) := rfl
    rw [hsome]
    by_cases hlt : n < key row
    · have hafter : (after.all fun k => decide (k < key row)) = true := by
        rw [Option.all_eq_true]
        exact fun k hk => decide_eq_true ((h k hk).trans hlt)
      rw [if_pos (decide_eq_true hlt), if_pos hafter, List.filterMap_cons, List.filterMap_cons]
      cases hrow : shown row with
      | none => exact ih
      | some entry =>
        have hentry : n < name entry := by rwa [hname row entry hrow]
        simp only [List.filter_cons, decide_eq_true hentry, if_true]
        rw [ih]
    · rw [if_neg (by simpa using hlt), ih]
      split
      · rw [List.filterMap_cons]
        cases hrow : shown row with
        | none => rfl
        | some entry =>
          have hentry : ¬ n < name entry := by rwa [hname row entry hrow]
          simp only [List.filter_cons, decide_eq_false hentry, Bool.false_eq_true, if_false]
      · rfl

theorem le_getLast {list : List α} (hsorted : list.Pairwise fun x y => key x ≤ key y) {last : β}
    (hlast : (list.filterMap shown).getLast? = some last) :
    ∀ entry ∈ list.filterMap shown, name entry ≤ name last := by
  obtain ⟨front, hfront⟩ := List.getLast?_eq_some_iff.mp hlast
  have h := filterMap_sorted hname hsorted
  rw [hfront, List.pairwise_append] at h
  intro entry hentry
  rw [hfront] at hentry
  rcases List.mem_append.mp hentry with hmem | hmem
  · exact h.2.2 entry hmem last (List.mem_singleton.mpr rfl)
  · rw [List.mem_singleton.mp hmem]

theorem lt_last (harranged : Arranged key (beyond key rows after) arranged) {last : β}
    (hlast : last ∈ (arranged.take cap).filterMap shown) : ∀ k ∈ after, k < name last := by
  intro k hk
  obtain ⟨row, hrow, hshown⟩ := List.mem_filterMap.mp hlast
  have hmem : row ∈ beyond key rows after := harranged.1.mem_iff.mp (List.mem_of_mem_take hrow)
  have hall := (List.mem_filter.mp hmem).2
  rw [hname row last hshown]
  exact of_decide_eq_true ((Option.all_eq_true _ _).mp hall k hk)

/-- **What a cut page leaves out is what the next request is for**, if no name is on both sides. -/
theorem left_eq_beyond (harranged : Arranged key (beyond key rows after) arranged) {last : β}
    (hlast : ((arranged.take cap).filterMap shown).getLast? = some last)
    (hleft : ∀ other ∈ (arranged.drop cap).filterMap shown, name other ≠ name last) :
    ((beyond key rows (some (name last))).filterMap shown).Perm ((arranged.drop cap).filterMap shown) := by
  have hmem := List.mem_of_getLast? hlast
  have hsplit := List.pairwise_append.mp ((List.take_append_drop cap arranged).symm ▸ harranged.2)
  obtain ⟨row, hrow, hshown⟩ := List.mem_filterMap.mp hmem
  rw [beyond_filterMap hname (lt_last hname harranged hmem)]
  have hperm := (harranged.1.filterMap shown).symm.filter fun entry => decide (name last < name entry)
  refine hperm.trans (List.Perm.of_eq ?_)
  have hnone : ((arranged.take cap).filterMap shown).filter (fun entry => decide (name last < name entry)) = [] := by
    refine List.filter_eq_nil_iff.mpr fun entry hentry => ?_
    have hle := le_getLast hname hsplit.1 hlast entry hentry
    simpa using hle
  have hall : ((arranged.drop cap).filterMap shown).filter (fun entry => decide (name last < name entry)) =
      (arranged.drop cap).filterMap shown := by
    refine List.filter_eq_self.mpr fun entry hentry => ?_
    obtain ⟨other, hother, hshownOther⟩ := List.mem_filterMap.mp hentry
    have hle : name last ≤ name entry := by
      rw [hname row last hshown, hname other entry hshownOther]
      exact hsplit.2.2 row hrow other hother
    exact decide_eq_true (lt_of_le_of_ne hle (hleft entry hentry).symm)
  conv_lhs => rw [← List.take_append_drop cap arranged]
  rw [List.filterMap_append, List.filter_append, hnone, hall, List.nil_append]

/-! ## 3. Paged rows are reached -/

theorem reaches_of_paged (hanswer : ∀ after, Answers key shown cap rows after (answer after))
    (h : Paged key shown name cap rows after) : Reaches key shown name rows answer after := by
  induction h with
  | @last after hlength =>
    obtain ⟨arranged, harranged, hpage⟩ := (hanswer after).arranged
    have hshort : arranged.length ≤ cap := by rwa [harranged.1.length_eq]
    have htruncated : (answer after).truncated = false := by
      rw [hpage]
      exact decide_eq_false (by omega)
    refine ⟨1, (answer after).entries, by rw [walk, htruncated]; rfl, ?_⟩
    rw [hpage]
    simp only [List.take_of_length_le hshort]
    exact ⟨harranged.1.filterMap shown, filterMap_sorted hname harranged.2⟩
  | @next after hcut hlast hnext ih =>
    obtain ⟨arranged, harranged, hpage⟩ := (hanswer after).arranged
    obtain ⟨entry, hentry, hleft⟩ := hlast arranged harranged
    obtain ⟨fuel, others, hwalk, hperm, hsorted⟩ := ih arranged entry harranged hentry
    have htruncated : (answer after).truncated = true := by
      rw [hpage]
      exact decide_eq_true (by rwa [harranged.1.length_eq])
    have hentries : (answer after).entries = (arranged.take cap).filterMap shown := by rw [hpage]
    have hafter : nextAfter name after (answer after) = some (name entry) := by
      rw [nextAfter, hentries, hentry]
      rfl
    refine ⟨fuel + 1, (answer after).entries ++ others, ?_, ?_, ?_⟩
    · rw [walk_append htruncated, hafter, hwalk]
      rfl
    · have hall := (harranged.1.filterMap shown).symm
      rw [← List.take_append_drop cap arranged, List.filterMap_append] at hall
      rw [hentries]
      exact ((hperm.trans (left_eq_beyond hname harranged hentry hleft)).append_left _).trans hall.symm
    · have hfirst := List.pairwise_append.mp ((List.take_append_drop cap arranged).symm ▸ harranged.2)
      rw [hentries, List.pairwise_append]
      refine ⟨filterMap_sorted hname hfirst.1, hsorted, fun x hx y hy => ?_⟩
      -- what comes later was shown beyond the last name of this page
      have hy' : y ∈ (beyond key rows (some (name entry))).filterMap shown := hperm.mem_iff.mp hy
      rw [beyond_filterMap hname (lt_last hname harranged (List.mem_of_getLast? hentry))] at hy'
      exact (le_getLast hname hfirst.1 hentry x hx).trans (of_decide_eq_true (List.mem_filter.mp hy').2).le

/-! ## 4. Reached rows are paged -/

theorem lt_of_mem_walk (hanswer : ∀ after, Answers key shown cap rows after (answer after)) :
    ∀ {fuel : Nat} {after : Option K} {entries : List β}, walk name answer fuel after = some entries →
      ∀ entry ∈ entries, ∀ k ∈ after, k < name entry
  | 0, _, _, h => by cases h
  | fuel + 1, after, entries, h => by
      obtain ⟨arranged, harranged, hpage⟩ := (hanswer after).arranged
      have hentries : (answer after).entries = (arranged.take cap).filterMap shown := by rw [hpage]
      have hpaged : ∀ entry ∈ (answer after).entries, ∀ k ∈ after, k < name entry := by
        intro entry hentry
        rw [hentries] at hentry
        exact lt_last hname harranged hentry
      rw [walk] at h
      split at h
      · obtain ⟨others, hothers, rfl⟩ := Option.map_eq_some_iff.mp h
        intro entry hentry k hk
        rcases List.mem_append.mp hentry with hmem | hmem
        · exact hpaged entry hmem k hk
        · have hlater := lt_of_mem_walk hanswer hothers entry hmem
          cases hlast : (answer after).entries.getLast? with
          | none =>
            refine hlater k ?_
            rw [nextAfter, hlast]
            exact hk
          | some last =>
            have hbefore := hpaged last (List.mem_of_getLast? hlast) k hk
            refine hbefore.trans (hlater (name last) ?_)
            rw [nextAfter, hlast]
            rfl
      · cases h
        exact hpaged

/-- What the pages from an arrangement on return: its cut leaves nothing behind. -/
theorem step_of_reaches (hanswer : ∀ after, Answers key shown cap rows after (answer after))
    (hreaches : Reaches key shown name rows answer after)
    (harranged : Arranged key (beyond key rows after) arranged) (hcut : cap < arranged.length)
    (hpage : answer after = ⟨(arranged.take cap).filterMap shown, decide (cap < arranged.length)⟩) :
    ∃ entry, ((arranged.take cap).filterMap shown).getLast? = some entry ∧
      (∀ other ∈ (arranged.drop cap).filterMap shown, name other ≠ name entry) ∧
      Reaches key shown name rows answer (some (name entry)) := by
  obtain ⟨fuel, entries, hwalk, hperm, hsorted⟩ := hreaches
  have htruncated : (answer after).truncated = true := by
    rw [hpage]
    exact decide_eq_true hcut
  have hentries : (answer after).entries = (arranged.take cap).filterMap shown := by rw [hpage]
  cases hlast : ((arranged.take cap).filterMap shown).getLast? with
  | none =>
    have hempty : (answer after).entries = [] := by rw [hentries, List.getLast?_eq_none_iff.mp hlast]
    rw [walk_none_of_empty hempty htruncated fuel] at hwalk
    cases hwalk
  | some entry =>
    have hafter : nextAfter name after (answer after) = some (name entry) := by
      rw [nextAfter, hentries, hlast]
      rfl
    cases fuel with
    | zero => cases hwalk
    | succ fuel =>
      rw [walk_append htruncated, hafter] at hwalk
      obtain ⟨others, hothers, rfl⟩ := Option.map_eq_some_iff.mp hwalk
      have hall := harranged.1.filterMap shown
      rw [← List.take_append_drop cap arranged, List.filterMap_append, ← hentries] at hall
      have hrest : others.Perm ((arranged.drop cap).filterMap shown) :=
        (List.perm_append_left_iff _).mp (hperm.trans hall.symm)
      have hleft : ∀ other ∈ (arranged.drop cap).filterMap shown, name other ≠ name entry := by
        intro other hother heq
        have hlt := lt_of_mem_walk hname hanswer hothers other (hrest.mem_iff.mpr hother) (name entry) rfl
        rw [heq] at hlt
        exact lt_irrefl _ hlt
      exact ⟨entry, rfl, hleft, fuel, others, hothers,
        hrest.trans (left_eq_beyond hname harranged hlast hleft).symm, (List.pairwise_append.mp hsorted).2.1⟩

theorem beyond_length_lt (harranged : Arranged key (beyond key rows after) arranged) {entry : β}
    (hentry : ((arranged.take cap).filterMap shown).getLast? = some entry) :
    (beyond key rows (some (name entry))).length < (beyond key rows after).length := by
  have hmem := List.mem_of_getLast? hentry
  obtain ⟨row, hrow, hshown⟩ := List.mem_filterMap.mp hmem
  have hafter := lt_last hname harranged hmem
  have hrowMem : row ∈ beyond key rows after := harranged.1.mem_iff.mp (List.mem_of_mem_take hrow)
  have hsub : beyond key rows (some (name entry)) =
      (beyond key rows after).filter fun row => decide (name entry < key row) := by
    unfold beyond
    rw [List.filter_filter]
    refine List.filter_congr fun other _ => ?_
    have hsome : ((some (name entry)).all fun k => decide (k < key other)) = decide (name entry < key other) := rfl
    rw [hsome]
    by_cases hlt : name entry < key other
    · have hall : (after.all fun k => decide (k < key other)) = true := by
        rw [Option.all_eq_true]
        exact fun k hk => decide_eq_true ((hafter k hk).trans hlt)
      rw [decide_eq_true hlt, hall]
      rfl
    · rw [decide_eq_false hlt]
      rfl
  rw [hsub]
  refine List.length_filter_lt_length_iff_exists.mpr ⟨row, hrowMem, ?_⟩
  rw [hname row entry hshown]
  simp

theorem paged_of_reaches (h : ∀ answer : Option K → Shown β,
      (∀ after, Answers key shown cap rows after (answer after)) →
      Reaches key shown name rows answer none) : Paged key shown name cap rows none := by
  classical
  -- an arrangement that goes wrong wherever one does
  let wrong (after : Option K) (arranged : List α) : Prop :=
    Arranged key (beyond key rows after) arranged ∧ ¬ ∃ entry,
      ((arranged.take cap).filterMap shown).getLast? = some entry ∧
      (∀ other ∈ (arranged.drop cap).filterMap shown, name other ≠ name entry) ∧
      Paged key shown name cap rows (some (name entry))
  let chosen (after : Option K) : List α :=
    if hwrong : ∃ arranged, wrong after arranged then hwrong.choose else arrange key (beyond key rows after)
  have hchosen : ∀ after, Arranged key (beyond key rows after) (chosen after) := by
    intro after
    by_cases hwrong : ∃ arranged, wrong after arranged
    · rw [show chosen after = hwrong.choose from dif_pos hwrong]
      exact hwrong.choose_spec.1
    · rw [show chosen after = arrange key (beyond key rows after) from dif_neg hwrong]
      exact ⟨arrange_perm key _, arrange_pairwise key _⟩
  let answer (after : Option K) : Shown β :=
    ⟨((chosen after).take cap).filterMap shown, decide (cap < (chosen after).length)⟩
  have hanswer : ∀ after, Answers key shown cap rows after (answer after) :=
    fun after => answers_of_arranged (hchosen after)
  -- by induction on how much is left, with the pages of that choice
  have hpaged : ∀ (bound : Nat) (after : Option K), (beyond key rows after).length ≤ bound →
      Reaches key shown name rows answer after → Paged key shown name cap rows after := by
    intro bound
    induction bound with
    | zero => exact fun after hbound _ => .last (by omega)
    | succ bound ih =>
      intro after hbound hreaches
      by_cases hcut : cap < (beyond key rows after).length
      · have hlength : cap < (chosen after).length := by rwa [(hchosen after).1.length_eq]
        obtain ⟨entry, hentry, hleft, hnext⟩ := step_of_reaches hname hanswer hreaches (hchosen after) hlength rfl
        have hless := beyond_length_lt hname (hchosen after) hentry
        have hright : ¬ ∃ arranged, wrong after arranged := by
          intro hwrong
          have hspec : wrong after (chosen after) := by
            rw [show chosen after = hwrong.choose from dif_pos hwrong]
            exact hwrong.choose_spec
          exact hspec.2 ⟨entry, hentry, hleft, ih _ (by omega) hnext⟩
        push Not at hright
        have hgood : ∀ arranged, Arranged key (beyond key rows after) arranged → ∃ entry,
            ((arranged.take cap).filterMap shown).getLast? = some entry ∧
            (∀ other ∈ (arranged.drop cap).filterMap shown, name other ≠ name entry) ∧
            Paged key shown name cap rows (some (name entry)) := by
          intro arranged harranged
          by_contra hnot
          exact hright arranged ⟨harranged, hnot⟩
        refine .next hcut (fun arranged harranged => ?_) fun arranged entry harranged hentry => ?_
        · obtain ⟨entry, hentry, hleft, -⟩ := hgood arranged harranged
          exact ⟨entry, hentry, hleft⟩
        · obtain ⟨last, hlast, -, hlater⟩ := hgood arranged harranged
          rw [hentry] at hlast
          cases hlast
          exact hlater
      · exact .last (by omega)
  exact hpaged _ none le_rfl (h answer hanswer)

/-- **The pages are whole, however rows of one key are arranged**, exactly if the rows are paged. -/
theorem walk_whole_iff : (∀ answer : Option K → Shown β,
      (∀ after, Answers key shown cap rows after (answer after)) →
      Reaches key shown name rows answer none) ↔ Paged key shown name cap rows none :=
  ⟨paged_of_reaches hname, fun h _ hanswer => reaches_of_paged hname hanswer h⟩

end

end Ceres.Library.Cursor
