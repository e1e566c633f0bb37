/-
  File:      Ceres/Server/Paging.lean
  Subject:   PAGING THROUGH A DIRECTORY (`rust/ceres-server/src/api/files.rs`: `OpenMount::list`, `describe`,
             `Candidate`).

  A listing keeps the first names after `after`, one more than the cap, then drops a link into an excluded
  path. Its heap orders by name alone, so candidates of one name, which only a lossy conversion makes, come
  in any order. The directory does not change, hence nothing is swept.

  * `candidates` -- the entries of a directory that are not excluded;
  * `Lists` -- what a request may answer; **`list_lists`** -- the code's loop is one such;
  * **`paging_reaches_iff`** -- which directories are paged whole;
  * `crowded_loses_one` -- a directory of one entry more than the cap, all shown by one name.
-/
import Ceres.Library.Cursor
import Ceres.Server.Files

namespace Ceres.Server.Paging

open Ceres.Library
open Ceres.Library.FileSystem
open Ceres.Server.Files

/-! ## 1. Candidates -/

section
variable {β : Type} (links : Nat) (tree : FileTree β) (mount : OpenMount) (directory : FilePath)

/-- What stands in front of every name below the root. -/
def front : Text :=
  let above := (relative mount directory).getD []
  if above = [] then [] else above ++ ['/']

/-- The entry as a candidate, unless it is excluded. -/
def candidateOf (child : OsName × Metadata β) : Option Candidate :=
  if mount.exclusion.excludes (front mount directory ++ child.1.text) then none
  else some ⟨child.1.text, directory ++ [child.1], child.1.raw.isNone⟩

def candidates : List Candidate := (tree.readDir directory).filterMap (candidateOf mount directory)

/-- A request for what comes after a name, in a directory nothing is swept from. -/
def Lists (after : Option Text) (listing : FileListing) : Prop :=
  Cursor.Answers Candidate.name (describe links tree mount) listingCap (candidates tree mount directory) after
    ⟨listing.entries, listing.truncated⟩

/-- The pages end, and show every entry that is not excluded and not a link into an excluded path, once
    each, by name. -/
def Reaches (answer : Option Text → FileListing) : Prop :=
  Cursor.Reaches Candidate.name (describe links tree mount) FileEntry.name (candidates tree mount directory)
    (fun after => ⟨(answer after).entries, (answer after).truncated⟩) none

/-- However candidates of one name are arranged, a truncated page shows an entry, and no candidate left
    out is shown under the name of its last. -/
def Paged : Prop :=
  Cursor.Paged Candidate.name (describe links tree mount) FileEntry.name listingCap
    (candidates tree mount directory) none

end

section
variable {β : Type} {links : Nat} {tree : FileTree β} {mount : OpenMount} {directory : FilePath}

/-! ## 2. The loop -/

theorem insert_take (candidate : Candidate) : ∀ (n : Nat) (list : List Candidate),
    ((list.take n).orderedInsert (fun a b => a.name ≤ b.name) candidate).take n =
      (list.orderedInsert (fun a b => a.name ≤ b.name) candidate).take n
  | 0, list => by rw [List.take_zero, List.take_zero]
  | n + 1, [] => by rw [List.take_nil]
  | n + 1, head :: rest => by
      rw [List.take_succ_cons, List.orderedInsert_cons, List.orderedInsert_cons]
      by_cases hle : candidate.name ≤ head.name
      · rw [if_pos hle, if_pos hle, List.take_succ_cons, List.take_succ_cons]
        cases n with
        | zero => rfl
        | succ n => rw [List.take_succ_cons, List.take_succ_cons, List.take_take, Nat.min_eq_left (Nat.le_succ n)]
      · rw [if_neg hle, if_neg hle, List.take_succ_cons, List.take_succ_cons, insert_take candidate n rest]

/-- One more candidate leaves the heap the first names of all. -/
theorem keep_take (list : List Candidate) (candidate : Candidate) : keep (list.take (listingCap + 1)) candidate =
      (list.orderedInsert (fun a b => a.name ≤ b.name) candidate).take (listingCap + 1) := by
  rw [← insert_take]
  unfold keep
  simp only
  have hlength : ((list.take (listingCap + 1)).orderedInsert (fun a b => a.name ≤ b.name) candidate).length ≤
      listingCap + 1 + 1 := by
    rw [List.orderedInsert_length]
    exact Nat.succ_le_succ (List.length_take_le _ _)
  split
  · rename_i hlong
    rw [List.dropLast_eq_take]
    congr 1
    omega
  · rename_i hshort
    exact (List.take_of_length_le (by omega)).symm

theorem listEntry_eq (after : Option Text) (kept : List Candidate) (child : OsName × Metadata β) :
    listEntry mount (fun _ => false) directory after kept child =
      (Cursor.beyond Candidate.name (candidateOf mount directory child).toList after).foldl keep kept := by
  have hone : ∀ candidate : Candidate, Cursor.beyond Candidate.name [candidate] after =
      if (after.any fun k => decide (candidate.name ≤ k)) = true then [] else [candidate] := by
    intro candidate
    cases after with
    | none => rfl
    | some k =>
      by_cases hle : candidate.name ≤ k
      · have hlt : ¬ k < candidate.name := not_lt.mpr hle
        simp [Cursor.beyond, hle, hlt]
      · have hlt : k < candidate.name := not_le.mp hle
        simp [Cursor.beyond, hle, hlt]
  have hentry : listEntry mount (fun _ => false) directory after kept child =
      if ((after.any fun k => decide (child.1.text ≤ k)) ||
          mount.exclusion.excludes (front mount directory ++ child.1.text)) = true then kept
      else keep kept ⟨child.1.text, directory ++ [child.1], child.1.raw.isNone⟩ := by
    unfold listEntry front
    simp only [Bool.and_false, Bool.false_or]
  rw [hentry]
  by_cases hexcluded : mount.exclusion.excludes (front mount directory ++ child.1.text) = true
  · rw [candidateOf, if_pos hexcluded, hexcluded, Bool.or_true, if_pos rfl]
    rfl
  · have hadmitted : mount.exclusion.excludes (front mount directory ++ child.1.text) = false := by
      simpa using hexcluded
    rw [candidateOf, if_neg hexcluded, hadmitted, Bool.or_false]
    rw [Option.toList_some, hone]
    split <;> rfl

theorem foldl_keep (offered : List Candidate) : ∀ arranged : List Candidate,
    arranged.Pairwise (fun x y => x.name ≤ y.name) →
    ∃ last : List Candidate, last.Pairwise (fun x y => x.name ≤ y.name) ∧ last.Perm (offered ++ arranged) ∧
      offered.foldl keep (arranged.take (listingCap + 1)) = last.take (listingCap + 1) := by
  induction offered with
  | nil => exact fun arranged hsorted => ⟨arranged, hsorted, List.Perm.refl _, rfl⟩
  | cons candidate rest ih =>
    intro arranged hsorted
    have htotal : ∀ x y : Candidate, x.name ≤ y.name ∨ y.name ≤ x.name := fun x y => le_total _ _
    have hinsert : (arranged.orderedInsert (fun a b => a.name ≤ b.name) candidate).Pairwise
        (fun x y => x.name ≤ y.name) := by
      have : Std.Total (fun a b : Candidate => a.name ≤ b.name) := ⟨htotal⟩
      have : IsTrans Candidate (fun a b => a.name ≤ b.name) := ⟨fun _ _ _ => le_trans⟩
      exact hsorted.orderedInsert candidate arranged
    obtain ⟨last, hlast, hperm, hfold⟩ := ih _ hinsert
    refine ⟨last, hlast, hperm.trans ?_, ?_⟩
    · exact ((List.perm_orderedInsert _ candidate arranged).append_left _).trans List.perm_middle
    · rw [List.foldl_cons, keep_take, hfold]

/-- The heap after the loop holds, of some arrangement of the candidates, the first names. -/
theorem foldl_listEntry (after : Option Text) : ∀ (children : List (OsName × Metadata β)) (kept : List Candidate),
    children.foldl (listEntry mount (fun _ => false) directory after) kept =
      (Cursor.beyond Candidate.name (children.filterMap (candidateOf mount directory)) after).foldl keep kept
  | [], _ => rfl
  | child :: rest, kept => by
      have hsplit : Cursor.beyond Candidate.name ((child :: rest).filterMap (candidateOf mount directory)) after =
          Cursor.beyond Candidate.name (candidateOf mount directory child).toList after ++
            Cursor.beyond Candidate.name (rest.filterMap (candidateOf mount directory)) after := by
        unfold Cursor.beyond
        rw [← List.filter_append]
        congr 1
        rw [List.filterMap_cons]
        cases candidateOf mount directory child <;> rfl
      rw [List.foldl_cons, foldl_listEntry after rest, listEntry_eq, hsplit, List.foldl_append]

/-- **The code's listing** is one that may be answered. -/
theorem list_lists (query : FileQuery) : Lists links tree mount directory query.after
    (list links tree mount (fun _ => false) directory query) := by
  obtain ⟨arranged, hsorted, hperm, hfold⟩ := foldl_keep
    (Cursor.beyond Candidate.name (candidates tree mount directory) query.after) [] List.Pairwise.nil
  rw [List.append_nil] at hperm
  rw [List.take_nil] at hfold
  have hkept : (tree.readDir directory).foldl (listEntry mount (fun _ => false) directory query.after) [] =
      arranged.take (listingCap + 1) := (foldl_listEntry query.after (tree.readDir directory) []).trans hfold
  refine ⟨arranged.take (listingCap + 1), ⟨arranged, hperm, hsorted, by rw [List.drop_zero]⟩, ?_⟩
  unfold list
  simp only [hkept]

/-! ## 3. Pages -/

theorem describe_candidate (candidate : Candidate) (entry : FileEntry)
    (h : describe links tree mount candidate = some entry) : entry.name = candidate.name := describe_name h

/-- **Paging through a directory reaches everything**, however its heap arranges equal names, exactly if
    every truncated page shows an entry and parts no name. -/
theorem paging_reaches_iff (links : Nat) (tree : FileTree β) (mount : OpenMount) (directory : FilePath) :
    (∀ answer : Option Text → FileListing, (∀ after, Lists links tree mount directory after (answer after)) →
      Reaches links tree mount directory answer) ↔ Paged links tree mount directory := by
  rw [Paged, ← Cursor.walk_whole_iff describe_candidate]
  constructor
  · intro h answer hanswer
    exact h (fun after => ⟨(answer after).entries, (answer after).truncated⟩) hanswer
  · intro h answer hanswer
    exact h _ hanswer

end

/-! ## 4. A crowded directory -/

/-- A name of three bytes none of which is UTF-8, shown as three replacement characters. -/
def undecodable (k : Nat) : OsName := ⟨['\uFFFD', '\uFFFD', '\uFFFD'], some k, by decide⟩

/-- The root holds so many of them. -/
def crowdedEntries (n : Nat) : Dict FilePath (Metadata Unit) :=
  ([], ⟨0, .directory⟩) :: (List.range n).map fun k => ([undecodable k], ⟨k + 1, .file []⟩)

theorem crowdedEntries_keys (n : Nat) : Dict.keys (crowdedEntries n) =
    [] :: (List.range n).map fun k => [undecodable k] := by
  rw [crowdedEntries, Dict.keys, List.map_cons, List.map_map]
  rfl

def crowded (n : Nat) : FileTree Unit where
  entries := crowdedEntries n
  nodup := by
    rw [crowdedEntries_keys, List.nodup_cons]
    refine ⟨fun h => ?_, ?_⟩
    · obtain ⟨k, -, hk⟩ := List.mem_map.mp h
      cases hk
    · refine List.nodup_range.map fun k l h => ?_
      have hraw : some k = some l := congrArg OsName.raw (List.cons.inj h).1
      exact Option.some.inj hraw
  root := rfl
  closed := by
    intro entry hentry
    rcases List.mem_cons.mp hentry with rfl | hentry
    · exact Or.inl rfl
    · obtain ⟨k, -, rfl⟩ := List.mem_map.mp hentry
      exact Or.inr rfl

/-- The request for the page after a name. -/
def pageQuery (after : Option Text) : FileQuery where
  after := after
  stat := false
  download := false
  directory := false
  recursive := false
  overwrite := false
  hidden := false
  entries := []

/-- A mount of the whole tree that excludes nothing. -/
def openMount : OpenMount := ⟨[], ⟨[], []⟩, false⟩

theorem crowded_readDir (n : Nat) : (crowded n).readDir [] =
    (List.range n).map fun k => (undecodable k, ⟨k + 1, .file []⟩) := by
  show (crowdedEntries n).filterMap _ = _
  rw [crowdedEntries, List.filterMap_cons]
  show List.filterMap _ _ = _
  rw [List.filterMap_map]
  exact congrFun (List.filterMap_eq_map (f := fun k => (undecodable k, (⟨k + 1, .file []⟩ : Metadata Unit)))) _

theorem crowded_candidates (n : Nat) : candidates (crowded n) openMount [] =
    (List.range n).map fun k => (⟨['\uFFFD', '\uFFFD', '\uFFFD'], [undecodable k], false⟩ : Candidate) := by
  rw [candidates, crowded_readDir, List.filterMap_map]
  have hone : ∀ k : Nat, (candidateOf openMount [] ∘ fun k => (undecodable k, (⟨k + 1, .file []⟩ : Metadata Unit))) k =
      some ⟨['\uFFFD', '\uFFFD', '\uFFFD'], [undecodable k], false⟩ := by
    intro k
    have hfront : front openMount [] = [] := by decide
    have hexcluded : openMount.exclusion.excludes ['\uFFFD', '\uFFFD', '\uFFFD'] = false := by decide
    show candidateOf openMount [] (undecodable k, _) = _
    rw [candidateOf, hfront, if_neg (by rw [List.nil_append]; exact ne_true_of_eq_false hexcluded)]
    rfl
  rw [funext hone]
  exact congrFun (List.filterMap_eq_map
    (f := fun k => (⟨['\uFFFD', '\uFFFD', '\uFFFD'], [undecodable k], false⟩ : Candidate))) _

/-- **The first page parts the entries of one name**: every entry is shown, and no page order or heap order
    returns them all. -/
theorem crowded_loses_one :
    (∀ candidate ∈ candidates (crowded (listingCap + 1)) openMount [],
      (describe 0 (crowded (listingCap + 1)) openMount candidate).isSome = true) ∧
    (∃ answer : Option Text → FileListing,
      ∀ after, Lists 0 (crowded (listingCap + 1)) openMount [] after (answer after)) ∧
    ∀ answer : Option Text → FileListing,
      (∀ after, Lists 0 (crowded (listingCap + 1)) openMount [] after (answer after)) →
      ¬ Reaches 0 (crowded (listingCap + 1)) openMount [] answer := by
  have hcandidate : ∀ candidate ∈ candidates (crowded (listingCap + 1)) openMount [],
      candidate.unicode = false ∧ candidate.name = ['\uFFFD', '\uFFFD', '\uFFFD'] := by
    intro candidate hmem
    rw [crowded_candidates] at hmem
    obtain ⟨k, -, rfl⟩ := List.mem_map.mp hmem
    exact ⟨rfl, rfl⟩
  have hshown : ∀ candidate ∈ candidates (crowded (listingCap + 1)) openMount [],
      (describe 0 (crowded (listingCap + 1)) openMount candidate).isSome = true := by
    intro candidate hmem
    rw [describe, if_pos (hcandidate candidate hmem).1]
    rfl
  refine ⟨hshown, ⟨fun after => list 0 (crowded (listingCap + 1)) openMount (fun _ => false) [] (pageQuery after),
    fun after => list_lists (pageQuery after)⟩, fun answer hanswer hreaches => ?_⟩
  obtain ⟨arranged, harranged, hpage⟩ := (hanswer none).arranged
  have hbeyond : Cursor.beyond Candidate.name (candidates (crowded (listingCap + 1)) openMount []) none =
      candidates (crowded (listingCap + 1)) openMount [] := List.filter_eq_self.mpr fun _ _ => rfl
  rw [hbeyond] at harranged
  have hlength : arranged.length = listingCap + 1 := by
    rw [harranged.1.length_eq, crowded_candidates, List.length_map, List.length_range]
  obtain ⟨entry, hentry, hleft, -⟩ := Cursor.step_of_reaches describe_candidate hanswer hreaches
    (by rw [hbeyond]; exact harranged) (by omega) hpage
  -- the one candidate left out is shown, by the name all have
  have hdrop : (arranged.drop listingCap).length = 1 := by rw [List.length_drop, hlength]; omega
  obtain ⟨left, hone⟩ := List.length_eq_one_iff.mp hdrop
  have hleftMem : left ∈ candidates (crowded (listingCap + 1)) openMount [] :=
    harranged.1.mem_iff.mp (List.mem_of_mem_drop (by rw [hone]; exact List.mem_singleton.mpr rfl))
  obtain ⟨other, hother⟩ := Option.isSome_iff_exists.mp (hshown left hleftMem)
  obtain ⟨last, hlast, hlastShown⟩ := List.mem_filterMap.mp (List.mem_of_getLast? hentry)
  have hlastMem : last ∈ candidates (crowded (listingCap + 1)) openMount [] :=
    harranged.1.mem_iff.mp (List.mem_of_mem_take hlast)
  refine hleft other (by rw [hone]; simp [hother]) ?_
  rw [describe_candidate left other hother, describe_candidate last entry hlastShown, (hcandidate left hleftMem).2,
    (hcandidate last hlastMem).2]

end Ceres.Server.Paging
