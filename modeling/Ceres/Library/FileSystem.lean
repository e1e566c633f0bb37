/-
  File:      Ceres/Library/FileSystem.lean
  Subject:   A FILE SYSTEM: directories, files, symbolic links and special files under one root.

  A path is the list of names from the root. Every entry stands in a directory, which the type of trees
  says; a link's target is a list of steps, from the root or from the directory the link is in.

  * `lookup`, `readDir`, `depth` -- what stands at a path, in a directory, and how far down;
  * `canonicalize` -- the links followed one after the other, up to a number of them;
  * **`canonicalize_solid`**, **`canonicalize_self`** -- where it ends nothing is a link, and such a path is
    its own canonical path;
  * `place`, `remove`, `removeAll`, `rename` -- the changes, each with what is found after it.
-/
import Ceres.Library.Dict

namespace Ceres.Library.FileSystem

/-! ## 1. Trees -/

/-- The names from the root down. -/
abbrev Path (ν : Type) : Type := List ν

/-- A part of a link's target: `.`, `..` or a name. -/
inductive Step (ν : Type) where
  | here
  | up
  | down (name : ν)

inductive Node (ν β : Type) where
  | file (content : β)
  | directory
  | symlink (absolute : Bool) (target : List (Step ν))
  /-- A socket, a pipe or a device. -/
  | special

structure Entry (ν β : Type) where
  /-- Names that share it are hard links of one file. -/
  inode : Nat
  node : Node ν β

namespace Entry

variable {ν β : Type}

def isFile (entry : Entry ν β) : Bool :=
  match entry.node with
  | .file _ => true
  | _ => false

def isDirectory (entry : Entry ν β) : Bool :=
  match entry.node with
  | .directory => true
  | _ => false

def isSymlink (entry : Entry ν β) : Bool :=
  match entry.node with
  | .symlink _ _ => true
  | _ => false

theorem isSymlink_of_directory {entry : Entry ν β} (h : entry.isDirectory = true) : entry.isSymlink = false := by
  unfold isDirectory at h
  unfold isSymlink
  split at h
  · rename_i hnode
    rw [hnode]
  · cases h

theorem isSymlink_of_file {entry : Entry ν β} (h : entry.isFile = true) : entry.isSymlink = false := by
  unfold isFile at h
  unfold isSymlink
  split at h
  · rename_i hnode
    rw [hnode]
  · cases h

end Entry

variable {ν β : Type} [DecidableEq ν]

/-- A directory stands at the path. -/
def isDirectoryIn (entries : Dict (Path ν) (Entry ν β)) (path : Path ν) : Bool :=
  (Dict.get entries path).any Entry.isDirectory

/-- Every entry but the root stands in a directory. -/
structure Tree (ν β : Type) [DecidableEq ν] where
  entries : Dict (Path ν) (Entry ν β)
  nodup : (Dict.keys entries).Nodup
  root : isDirectoryIn entries [] = true
  closed : ∀ entry ∈ entries, entry.1 = [] ∨ isDirectoryIn entries entry.1.dropLast = true

namespace Tree

def lookup (tree : Tree ν β) (path : Path ν) : Option (Entry ν β) := Dict.get tree.entries path

def isDirectory (tree : Tree ν β) (path : Path ν) : Bool := isDirectoryIn tree.entries path

/-- What stands in a directory, in no order that the code may rely on. -/
def readDir (tree : Tree ν β) (directory : Path ν) : List (ν × Entry ν β) :=
  tree.entries.filterMap fun (path, entry) =>
    path.getLast?.bind fun name => if path.dropLast = directory then some (name, entry) else none

/-- The names of the longest path. -/
def depth (tree : Tree ν β) : Nat := tree.entries.foldr (fun entry n => max entry.1.length n) 0

variable {tree : Tree ν β}

theorem isDirectory_iff {path : Path ν} :
    tree.isDirectory path = true ↔ ∃ entry, tree.lookup path = some entry ∧ entry.isDirectory = true := by
  unfold isDirectory isDirectoryIn lookup
  rw [Option.any_eq_true]

variable {entry : Entry ν β}

theorem isDirectory_parent {path : Path ν} {name : ν}
    (h : tree.lookup (path ++ [name]) = some entry) : tree.isDirectory path = true := by
  rcases tree.closed _ (Dict.mem_of_get h) with hroot | hparent
  · simp at hroot
  · rwa [List.dropLast_concat] at hparent

/-- A path that is found is reached through directories. -/
theorem isDirectory_of_above {above : Path ν} (rest : Path ν) (hrest : rest ≠ [])
    (h : tree.lookup (above ++ rest) = some entry) : tree.isDirectory above = true := by
  induction rest using List.reverseRecOn generalizing entry with
  | nil => exact absurd rfl hrest
  | append_singleton rest name ih =>
    rw [← List.append_assoc] at h
    have hparent := isDirectory_parent h
    by_cases hnil : rest = []
    · rwa [hnil, List.append_nil] at hparent
    · obtain ⟨parent, hfound, -⟩ := isDirectory_iff.mp hparent
      exact ih hnil hfound

theorem mem_readDir {directory : Path ν} {name : ν} :
    (name, entry) ∈ tree.readDir directory ↔ tree.lookup (directory ++ [name]) = some entry := by
  unfold readDir
  rw [List.mem_filterMap]
  constructor
  · intro h
    obtain ⟨⟨path, found⟩, hmem, hread⟩ := h
    obtain ⟨last, hlast, hread⟩ := Option.bind_eq_some_iff.mp hread
    by_cases hdirectory : path.dropLast = directory
    · rw [if_pos hdirectory, Option.some.injEq, Prod.mk.injEq] at hread
      have hpath : directory ++ [name] = path := by
        rw [← hdirectory, ← hread.1]
        exact List.dropLast_append_getLast? last hlast
      rw [hpath, ← hread.2]
      exact Dict.get_of_mem tree.nodup hmem
    · rw [if_neg hdirectory] at hread
      cases hread
  · intro h
    refine ⟨(directory ++ [name], entry), Dict.mem_of_get h, ?_⟩
    simp

theorem length_le_depth {path : Path ν} (h : tree.lookup path = some entry) : path.length ≤ tree.depth := by
  have hmem := Dict.mem_of_get h
  unfold depth
  generalize tree.entries = entries at hmem
  induction entries with
  | nil => cases hmem
  | cons first entries ih =>
    rw [List.foldr_cons]
    rcases List.mem_cons.mp hmem with hfirst | hlater
    · rw [← hfirst]
      exact Nat.le_max_left _ _
    · exact (ih hlater).trans (Nat.le_max_right _ _)

end Tree

/-! ## 2. Canonical paths -/

section Canonical

variable (tree : Tree ν β)

/-- The steps taken from a directory, up to the first link, from which `again` goes on. -/
def follow (again : Path ν → List (Step ν) → Option (Path ν)) :
    Path ν → List (Step ν) → Option (Path ν)
  | path, [] => some path
  | path, step :: steps =>
    if tree.isDirectory path then
      match step with
      | .here => follow again path steps
      | .up => follow again path.dropLast steps
      | .down name =>
        match tree.lookup (path ++ [name]) with
        | none => none
        | some ⟨_, .symlink absolute target⟩ =>
          again (if absolute then [] else path) (target ++ steps)
        | some _ => follow again (path ++ [name]) steps
    else none

/-- At most `links` links are followed. -/
def resolve : Nat → Path ν → List (Step ν) → Option (Path ν)
  | 0 => follow tree fun _ _ => none
  | links + 1 => follow tree (resolve links)

def canonicalize (links : Nat) (path : Path ν) : Option (Path ν) :=
  resolve tree links [] (path.map .down)

/-- Something other than a link is found there. -/
def Solid (path : Path ν) : Prop := ∃ entry, tree.lookup path = some entry ∧ entry.isSymlink = false

variable {tree}

theorem Solid.of_directory {path : Path ν} (h : tree.isDirectory path = true) : Solid tree path := by
  obtain ⟨entry, hfound, hdirectory⟩ := Tree.isDirectory_iff.mp h
  exact ⟨entry, hfound, Entry.isSymlink_of_directory hdirectory⟩

theorem isDirectory_dropLast {path : Path ν} (h : tree.isDirectory path = true) :
    tree.isDirectory path.dropLast = true := by
  induction path using List.reverseRecOn with
  | nil => exact h
  | append_singleton path name _ =>
    obtain ⟨entry, hfound, -⟩ := Tree.isDirectory_iff.mp h
    rw [List.dropLast_concat]
    exact Tree.isDirectory_parent hfound

theorem follow_solid {again : Path ν → List (Step ν) → Option (Path ν)}
    (hagain : ∀ path steps found, Solid tree path → again path steps = some found → Solid tree found)
    (steps : List (Step ν)) : ∀ {path found : Path ν}, Solid tree path →
      follow tree again path steps = some found → Solid tree found := by
  induction steps with
  | nil =>
    intro path found hpath h
    rw [follow, Option.some.injEq] at h
    exact h ▸ hpath
  | cons step steps ih =>
    intro path found hpath h
    unfold follow at h
    by_cases hdirectory : tree.isDirectory path = true
    · rw [if_pos hdirectory] at h
      cases step with
      | here => exact ih hpath h
      | up => exact ih (Solid.of_directory (isDirectory_dropLast hdirectory)) h
      | down name =>
        simp only at h
        split at h
        · cases h
        · rename_i absolute target _
          refine hagain _ _ _ ?_ h
          cases absolute with
          | false => exact hpath
          | true => exact Solid.of_directory tree.root
        · rename_i entry hnot hfound
          refine ih ⟨entry, hfound, ?_⟩ h
          unfold Entry.isSymlink
          split
          · rename_i absolute target hnode
            exact absurd (by rw [← hnode]) (hnot entry.inode absolute target)
          · rfl
    · rw [if_neg hdirectory] at h
      cases h

theorem resolve_solid (links : Nat) : ∀ (path : Path ν) (steps : List (Step ν)) (found : Path ν),
    Solid tree path → resolve tree links path steps = some found → Solid tree found := by
  induction links with
  | zero => exact fun _ steps _ hpath h => follow_solid (fun _ _ _ _ h => by cases h) steps hpath h
  | succ links ih => exact fun _ steps _ hpath h => follow_solid ih steps hpath h

/-- **A canonical path is found and is no link.** -/
theorem canonicalize_solid {links : Nat} {path found : Path ν}
    (h : canonicalize tree links path = some found) : Solid tree found :=
  resolve_solid links [] _ _ (Solid.of_directory tree.root) h

theorem follow_down {again : Path ν → List (Step ν) → Option (Path ν)} (rest : Path ν) :
    ∀ {above : Path ν}, Solid tree (above ++ rest) →
      follow tree again above (rest.map .down) = some (above ++ rest) := by
  induction rest with
  | nil =>
    intro above _
    rw [List.append_nil]
    rfl
  | cons name rest ih =>
    intro above hsolid
    obtain ⟨entry, hfound, hlink⟩ := hsolid
    have habove : tree.isDirectory above = true :=
      Tree.isDirectory_of_above (name :: rest) (List.cons_ne_nil _ _) hfound
    have hsplit : above ++ name :: rest = (above ++ [name]) ++ rest := by simp
    have hnext : ∃ next, tree.lookup (above ++ [name]) = some next ∧ next.isSymlink = false := by
      cases rest with
      | nil => exact ⟨entry, hfound, hlink⟩
      | cons second rest =>
        rw [hsplit] at hfound
        exact Solid.of_directory (Tree.isDirectory_of_above _ (List.cons_ne_nil _ _) hfound)
    obtain ⟨next, hnext, hsolid⟩ := hnext
    rw [List.map_cons, follow, if_pos habove, hsplit]
    simp only [hnext]
    rw [hsplit] at hfound
    split
    · rename_i heq
      cases heq
    · rename_i heq
      rw [Option.some.injEq] at heq
      rw [heq] at hsolid
      cases hsolid
    · exact ih ⟨entry, hfound, hlink⟩

/-- **What is found and is no link is its own canonical path.** -/
theorem canonicalize_self (links : Nat) {path : Path ν} (h : Solid tree path) :
    canonicalize tree links path = some path := by
  unfold canonicalize
  cases links with
  | zero => exact follow_down path h
  | succ links => exact follow_down path h

end Canonical

/-! ## 3. Changes -/

namespace Tree

/-- A number that no entry has. -/
def fresh (tree : Tree ν β) : Nat := tree.entries.foldr (fun entry n => max (entry.2.inode + 1) n) 0

/-- An entry takes a name in a directory, from a file or a link that has it. -/
def place (tree : Tree ν β) (directory : Path ν) (name : ν) (entry : Entry ν β) : Option (Tree ν β) :=
  if h : tree.isDirectory directory = true ∧ tree.isDirectory (directory ++ [name]) = false then
    some {
      entries := Dict.set tree.entries (directory ++ [name]) entry
      nodup := Dict.nodup_keys_set tree.nodup _ _
      root := by
        unfold isDirectoryIn
        rw [Dict.get_set, if_neg (by simp)]
        exact tree.root
      closed := by
        -- What is in a directory stays in it, since no directory is replaced.
        have hkept : ∀ path, isDirectoryIn tree.entries path = true →
            isDirectoryIn (Dict.set tree.entries (directory ++ [name]) entry) path = true := by
          intro path hpath
          have hne : directory ++ [name] ≠ path := by
            intro heq
            have hnot := h.2
            rw [heq] at hnot
            exact absurd hpath (by rw [show isDirectoryIn tree.entries path = false from hnot]; simp)
          unfold isDirectoryIn at hpath ⊢
          rwa [Dict.get_set, if_neg hne]
        intro found hfound
        rcases Dict.mem_set hfound with hold | hnew
        · exact (tree.closed found hold).imp_right (hkept _)
        · rw [hnew]
          refine .inr ?_
          rw [List.dropLast_concat]
          exact hkept _ h.1 }
  else none

/-- A file, a link or an empty directory is taken away. -/
def remove (tree : Tree ν β) (path : Path ν) : Option (Tree ν β) :=
  if h : path ≠ [] ∧ tree.readDir path = [] then
    some {
      entries := Dict.erase tree.entries path
      nodup := Dict.nodup_keys_erase tree.nodup path
      root := by
        unfold isDirectoryIn
        rw [Dict.get_erase, if_neg h.1]
        exact tree.root
      closed := by
        intro found hfound
        obtain ⟨hmem, -⟩ := Dict.mem_erase.mp hfound
        obtain ⟨found, entry⟩ := found
        rcases tree.closed _ hmem with hnil | hparent
        · exact .inl hnil
        · by_cases hfoundnil : found = []
          · exact .inl hfoundnil
          · refine .inr ?_
            have hne : path ≠ found.dropLast := by
              intro heq
              have hchild : (found.getLast hfoundnil, entry) ∈ tree.readDir path := by
                rw [mem_readDir, heq, List.dropLast_append_getLast]
                exact Dict.get_of_mem tree.nodup hmem
              rw [h.2] at hchild
              cases hchild
            unfold isDirectoryIn at hparent ⊢
            rwa [Dict.get_erase, if_neg hne] }
  else none

/-- A path and all below it is taken away. -/
def removeAll (tree : Tree ν β) (path : Path ν) : Option (Tree ν β) :=
  if h : path ≠ [] then
    some {
      entries := tree.entries.filter fun entry => !decide (path <+: entry.1)
      nodup := (List.filter_sublist.map Prod.fst).nodup tree.nodup
      root := by
        have hroot : (!decide (path <+: [])) = true := by simpa using h
        unfold isDirectoryIn
        rw [Dict.get_filter tree.entries fun key => !decide (path <+: key), if_pos hroot]
        exact tree.root
      closed := by
        intro found hfound
        obtain ⟨hmem, hkept⟩ := List.mem_filter.mp hfound
        refine (tree.closed found hmem).imp_right fun hparent => ?_
        have hdropped : (!decide (path <+: found.1.dropLast)) = true := by
          rw [Bool.not_eq_true', decide_eq_false_iff_not] at hkept ⊢
          exact fun hpre => hkept (hpre.trans (List.dropLast_prefix _))
        unfold isDirectoryIn at hparent ⊢
        rwa [Dict.get_filter tree.entries fun key => !decide (path <+: key), if_pos hdropped] }
  else none

/-- The key under which an entry is found once `source` is called `target`. -/
def rekey (source target path : Path ν) : Path ν :=
  if source <+: path then target ++ path.drop source.length else path

/-- Where nothing is found, nothing is below. -/
theorem not_prefix_of_lookup {tree : Tree ν β} {target path : Path ν} {entry : Entry ν β}
    (htarget : tree.lookup target = none) (h : tree.lookup path = some entry) : ¬ target <+: path := by
  intro hpre
  obtain ⟨rest, rfl⟩ := hpre
  cases rest with
  | nil =>
    rw [List.append_nil, htarget] at h
    cases h
  | cons name rest =>
    obtain ⟨directory, hfound, -⟩ :=
      isDirectory_iff.mp (isDirectory_of_above (name :: rest) (List.cons_ne_nil _ _) h)
    rw [htarget] at hfound
    cases hfound

theorem rekey_cases {source target path key : Path ν} (h : rekey source target path = key) :
    (∃ rest, path = source ++ rest ∧ key = target ++ rest) ∨ (¬ source <+: path ∧ path = key) := by
  unfold rekey at h
  split at h
  · rename_i hpre
    obtain ⟨rest, rfl⟩ := hpre
    rw [List.drop_left] at h
    exact .inl ⟨rest, rfl, h.symm⟩
  · rename_i hpre
    exact .inr ⟨hpre, h⟩

section Move

variable {tree : Tree ν β} {source target : Path ν} (htarget : tree.lookup target = none)

include htarget in
theorem rekey_injOn {path other : Path ν} {entry found : Entry ν β} (h : tree.lookup path = some entry)
    (hother : tree.lookup other = some found) (heq : rekey source target path = rekey source target other) :
    path = other := by
  have hpath := not_prefix_of_lookup htarget h
  have hnot := not_prefix_of_lookup htarget hother
  rcases rekey_cases heq with ⟨rest, rfl, hrest⟩ | ⟨hpre, hsame⟩
  · rcases rekey_cases hrest with ⟨more, rfl, hmore⟩ | ⟨-, hsame⟩
    · rw [List.append_cancel_left hmore]
    · exact absurd ⟨rest, hsame.symm⟩ hnot
  · rcases rekey_cases hsame.symm with ⟨rest, rfl, hrest⟩ | ⟨-, hsame⟩
    · exact absurd ⟨rest, hrest.symm⟩ hpath
    · exact hsame.symm

include htarget in
theorem nodup_rekey :
    (Dict.keys (tree.entries.map fun entry => (rekey source target entry.1, entry.2))).Nodup := by
  unfold Dict.keys
  rw [List.map_map]
  refine List.Nodup.map_on ?_ tree.nodup.of_map
  intro first hfirst second hsecond heq
  have hkey : first.1 = second.1 :=
    rekey_injOn htarget (Dict.get_of_mem tree.nodup hfirst) (Dict.get_of_mem tree.nodup hsecond) heq
  exact List.inj_on_of_nodup_map tree.nodup hfirst hsecond hkey

include htarget in
/-- What is found once everything at `source` is called `target`. -/
theorem get_rekey (path : Path ν) :
    Dict.get (tree.entries.map fun entry => (rekey source target entry.1, entry.2)) path =
      if target <+: path then tree.lookup (source ++ path.drop target.length)
      else if source <+: path then none else tree.lookup path := by
  have hnodup : (Dict.keys (tree.entries.map fun entry =>
      (rekey source target entry.1, entry.2))).Nodup := nodup_rekey htarget
  -- Read as entries, both sides hold the same ones.
  have hget : ∀ entry, Dict.get (tree.entries.map fun entry => (rekey source target entry.1, entry.2)) path =
      some entry ↔ ∃ key, tree.lookup key = some entry ∧ rekey source target key = path := by
    intro entry
    constructor
    · intro h
      obtain ⟨⟨key, value⟩, hmem, heq⟩ := List.mem_map.mp (Dict.mem_of_get h)
      rw [Prod.mk.injEq] at heq
      rw [← heq.2]
      exact ⟨key, Dict.get_of_mem tree.nodup hmem, heq.1⟩
    · intro h
      obtain ⟨key, hkey, heq⟩ := h
      refine Dict.get_of_mem hnodup (List.mem_map.mpr ⟨(key, entry), Dict.mem_of_get hkey, ?_⟩)
      rw [heq]
  refine Option.ext fun entry => ?_
  rw [hget entry]
  constructor
  · intro h
    obtain ⟨key, hkey, heq⟩ := h
    rcases rekey_cases heq with ⟨rest, rfl, rfl⟩ | ⟨hpre, rfl⟩
    · rw [if_pos (List.prefix_append _ _), List.drop_left]
      exact hkey
    · rwa [if_neg (not_prefix_of_lookup htarget hkey), if_neg hpre]
  · intro h
    split at h
    · rename_i hpre
      obtain ⟨rest, rfl⟩ := hpre
      rw [List.drop_left] at h
      refine ⟨source ++ rest, h, ?_⟩
      rw [rekey, if_pos (List.prefix_append _ _), List.drop_left]
    · split at h
      · cases h
      · rename_i hpre
        exact ⟨path, h, by rw [rekey, if_neg hpre]⟩

end Move

/-- What is at `source` and below takes a free name in a directory outside it. -/
def move (tree : Tree ν β) (source directory : Path ν) (name : ν) : Option (Tree ν β) :=
  if h : source ≠ [] ∧ tree.isDirectory directory = true ∧ ¬ source <+: directory ∧
      tree.lookup (directory ++ [name]) = none then
    some {
      entries := tree.entries.map fun entry => (rekey source (directory ++ [name]) entry.1, entry.2)
      nodup := nodup_rekey h.2.2.2
      root := by
        have htop : ¬ directory ++ [name] <+: [] := by simp
        unfold isDirectoryIn
        rw [get_rekey h.2.2.2, if_neg htop, if_neg (by simpa using h.1)]
        exact tree.root
      closed := by
        have hdirectory : ¬ directory ++ [name] <+: directory := fun hpre => by
          simpa using hpre.length_le
        intro found hfound
        obtain ⟨⟨path, entry⟩, hmem, rfl⟩ := List.mem_map.mp hfound
        have hlookup : tree.lookup path = some entry := Dict.get_of_mem tree.nodup hmem
        unfold isDirectoryIn
        rw [get_rekey h.2.2.2]
        rcases rekey_cases (rfl : rekey source (directory ++ [name]) path = _) with ⟨rest, hpath, hkey⟩ |
          ⟨hpre, hkey⟩
        · refine .inr ?_
          subst hpath
          simp only [hkey]
          by_cases hrest : rest = []
          · -- The entry itself, which is now in the directory it was moved to.
            rw [hrest, List.append_nil, List.dropLast_concat, if_neg hdirectory, if_neg h.2.2.1]
            exact h.2.1
          · rw [List.dropLast_append_of_ne_nil hrest, if_pos (List.prefix_append _ _), List.drop_left]
            have hparent := (tree.closed _ hmem).resolve_left (by simp [h.1])
            rwa [List.dropLast_append_of_ne_nil hrest] at hparent
        · simp only [← hkey]
          refine (tree.closed _ hmem).imp_right fun hparent => ?_
          have hdirectory : tree.isDirectory path.dropLast = true := hparent
          obtain ⟨above, habove, -⟩ := isDirectory_iff.mp hdirectory
          rw [if_neg (not_prefix_of_lookup h.2.2.2 habove),
            if_neg fun hsource => hpre (hsource.trans (List.dropLast_prefix _))]
          exact hparent }
  else none

theorem lookup_move {tree after : Tree ν β} {source directory : Path ν} {name : ν}
    (h : tree.move source directory name = some after) (path : Path ν) : after.lookup path =
      if directory ++ [name] <+: path then tree.lookup (source ++ path.drop (directory ++ [name]).length)
      else if source <+: path then none else tree.lookup path := by
  unfold move at h
  split at h
  · rename_i hmove
    cases h
    exact get_rekey hmove.2.2.2 path
  · cases h

/-- `rename`: what has the name already gives way to an entry of its kind, a directory when it is empty;
    between two names of one file nothing is done. -/
def rename (tree : Tree ν β) (source directory : Path ν) (name : ν) : Option (Tree ν β) :=
  match tree.lookup source, tree.lookup (directory ++ [name]) with
  | none, _ => none
  | some _, none => tree.move source directory name
  | some moved, some existing =>
    if existing.inode = moved.inode then some tree
    else if moved.isDirectory = existing.isDirectory then
      (tree.remove (directory ++ [name])).bind fun tree => tree.move source directory name
    else none

theorem lookup_place {tree after : Tree ν β} {directory : Path ν} {name : ν} {entry : Entry ν β}
    (h : tree.place directory name entry = some after) (path : Path ν) :
    after.lookup path = if directory ++ [name] = path then some entry else tree.lookup path := by
  unfold place at h
  split at h
  · cases h
    exact Dict.get_set _ _ _ _
  · cases h

theorem lookup_remove {tree after : Tree ν β} {path : Path ν} (h : tree.remove path = some after)
    (other : Path ν) : after.lookup other = if path = other then none else tree.lookup other := by
  unfold remove at h
  split at h
  · cases h
    exact Dict.get_erase _ _ _
  · cases h

theorem lookup_removeAll {tree after : Tree ν β} {path : Path ν} (h : tree.removeAll path = some after)
    (other : Path ν) : after.lookup other = if path <+: other then none else tree.lookup other := by
  unfold removeAll at h
  split at h
  · cases h
    unfold lookup
    rw [Dict.get_filter tree.entries fun key => !decide (path <+: key)]
    by_cases hpre : path <+: other
    · simp [hpre]
    · simp [hpre]
  · cases h

end Tree

end Ceres.Library.FileSystem
