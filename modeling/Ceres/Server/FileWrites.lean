/-
  File:      Ceres/Server/FileWrites.lean
  Subject:   WRITES OF THE FILE BROWSER (`rust/ceres-server/src/api/files.rs`: `target`, `upload`, `create_directory`,
             `rename`, `copy`, `delete`).

  A write names one entry below a mount's root, and a move or a copy a second one. First its checks are
  made (`plan`), then what they let through is carried out (`carryOut`). A part beside the target has its
  name back by the time the request ends, so an upload and a copy are taken to write at the target itself.

  * `target`, `plan`, `carryOut`, `respond` -- the request, as the code has it;
  * `Untouched` -- what the patterns exclude and what is outside the root are as before;
  * `Spares` -- what the checks miss: an excluded entry at or below a name shaped like a part, and one
    that is excluded only where a moved or copied directory puts it;
  * **`writes_untouched`** -- a write leaves them untouched exactly when what it carries out spares them;
  * `part_deleted`, `moved_under_pattern` -- a delete and a move that do not.
-/
import Ceres.Server.Files
import Ceres.Server.Uploads

namespace Ceres.Server.FileWrites

open Ceres.Library
open Ceres.Library.FileSystem
open Ceres.Server.Files
open Ceres.Server.Uploads (UploadConditions)

set_option linter.unusedSectionVars false

variable {β : Type}

/-! ## 1. Targets -/

/-- The entry a write names, in a parent directory the walk admitted. -/
structure WriteTarget where
  parent : FilePath
  name : OsName
  relative : Text

def WriteTarget.path (target : WriteTarget) : FilePath := target.parent ++ [target.name]

section Request

variable (links : Nat) (tree : FileTree β) (mount : OpenMount)

/-- Find the entry a write names. The entry itself is never followed. -/
def target (names : List OsName) : Except Status WriteTarget :=
  match names.getLast? with
  | none => .error .badRequest
  | some name =>
    if mount.exclusion.excludes (joined names) then .error .notFound
    else
      match admitPath links tree mount (mount.canonical ++ names.dropLast) with
      | none => .error .notFound
      | some parent =>
        if tree.isDirectory parent = false then .error .notFound
        else
          let below := joinName ((relative mount parent).getD []) name.text
          if mount.exclusion.excludes below then .error .notFound else .ok ⟨parent, name, below⟩

/-- Whether the walk below `directory` meets an excluded entry. -/
def holdsExcluded (directory : FilePath) (above : Text) : Bool :=
  (walk links tree mount directory above true).any fun visit =>
    match visit.walked with
    | .excluded => true
    | _ => false

/-- Refuse to move, copy or delete a directory that holds an excluded entry. -/
def refuseExcludedBelow (target : WriteTarget) (metadata : Metadata β) : Except Status Unit :=
  if metadata.isDirectory ∧ mount.exclusion.isEmpty = false ∧
      holdsExcluded links tree mount target.path target.relative then .error .conflict
  else .ok ()

/-- What stands at the entry itself, a symlink unfollowed. -/
def existing (target : WriteTarget) : Option (Metadata β) := tree.lookup target.path

/-! ## 2. Requests -/

inductive Request (β : Type) where
  /-- A body that broke off is `none`. -/
  | upload (conditions : UploadConditions) (declared : Option Nat) (body : Option (List β))
  | createDirectory
  | rename (onto : Text) (overwrite : Bool)
  | copy (onto : Text) (overwrite : Bool)
  | delete (recursive : Bool)

/-- What a request does once its checks have passed. -/
inductive Change (β : Type) where
  | upload (target : WriteTarget) (bytes : List β)
  | createDirectory (target : WriteTarget)
  | rename (source destination : WriteTarget) (replace : Bool)
  | copyFile (source destination : WriteTarget)
  | copyDirectory (source destination : WriteTarget)
  | removeFile (target : WriteTarget)
  | removeDirectory (target : WriteTarget)
  | removeAll (target : WriteTarget)

/-- What is looked at before the mount is opened: the declared length, and the destination's names. -/
def precheck (limit : Option Nat) : Request β → Except Status (List OsName)
  | .upload _ declared _ =>
    match limit, declared with
    | some limit, some declared => if limit < declared then .error .payloadTooLarge else .ok []
    | _, _ => .ok []
  | .rename onto _ => splitPath onto
  | .copy onto _ => splitPath onto
  | _ => .ok []

/-- `UploadConditions::check`; `tag` is the tag a read serves for a file. -/
def checkUpload (tag : Metadata β → Nat) (conditions : UploadConditions) (existing : Option (Metadata β)) :
    Except Status Unit :=
  match existing with
  | some ⟨inode, .file content⟩ =>
    match conditions.check (some ⟨tag ⟨inode, .file content⟩, content⟩) with
    | .ok () => .ok ()
    | .error _ => .error .preconditionFailed
  -- A symlink stays a symlink, the upload never writes through it.
  | some _ => .error .conflict
  | none =>
    match conditions.check (none : Option (Uploads.File β)) with
    | .ok () => .ok ()
    | .error _ => .error .preconditionFailed

def planUpload (tag : Metadata β → Nat) (limit : Option Nat) (names : List OsName)
    (conditions : UploadConditions) (body : Option (List β)) : Except Status (Change β) := do
  let target ← target links tree mount names
  if isPart target.name.text then .error .badRequest
  else
    checkUpload tag conditions (existing tree target)
    match body with
    | none => .error .badRequest
    | some bytes =>
      if limit.any fun limit => decide (limit < bytes.length) then .error .payloadTooLarge
      else return .upload target bytes

/-- Whether a rename replaces what is at the destination, which a hard link to the source found anywhere
    but under another case of its name would make do nothing. -/
def replaces (moved : Metadata β) (caseOnly overwrite : Bool) : Option (Metadata β) → Except Status Bool
  | none => .ok false
  | some existing =>
    if moved.inode = existing.inode then if caseOnly then .ok true else .error .conflict
    else if existing.isDirectory ∨ overwrite = false then .error .conflict
    else .ok true

/-- `lower` is `to_lowercase`. -/
def planRename (lower : Text → Text) (names onto : List OsName) (overwrite : Bool) :
    Except Status (Change β) := do
  let source ← target links tree mount names
  let destination ← target links tree mount onto
  if isPart destination.name.text then .error .badRequest
  else
    match existing tree source with
    | none => .error .notFound
    | some moved =>
      if moved.isDirectory ∧ source.path <+: destination.parent then .error .badRequest
      else
        -- A rename that changes only the case of a name finds the source itself there.
        let caseOnly := decide (destination.parent = source.parent ∧
          lower destination.name.text = lower source.name.text)
        let replace ← replaces moved caseOnly overwrite (existing tree destination)
        refuseExcludedBelow links tree mount source moved
        return .rename source destination replace

def planCopy (names onto : List OsName) (overwrite : Bool) : Except Status (Change β) := do
  let source ← target links tree mount names
  let destination ← target links tree mount onto
  if isPart destination.name.text then .error .badRequest
  else
    match existing tree source with
    | none => .error .notFound
    | some copied =>
      if ¬ (copied.isFile ∨ copied.isDirectory) ∨
          (copied.isDirectory ∧ source.path <+: destination.parent) then .error .badRequest
      else
        match existing tree destination with
        | some existing =>
          if overwrite ∧ copied.isFile ∧ existing.isFile ∧ copied.inode ≠ existing.inode then
            return .copyFile source destination
          else .error .conflict
        | none =>
          refuseExcludedBelow links tree mount source copied
          return if copied.isFile then .copyFile source destination else .copyDirectory source destination

def planDelete (names : List OsName) (recursive : Bool) : Except Status (Change β) := do
  let target ← target links tree mount names
  match existing tree target with
  | none => .error .notFound
  | some existing =>
    if existing.isDirectory = false then return .removeFile target
    else if recursive then
      refuseExcludedBelow links tree mount target existing
      return .removeAll target
    else return .removeDirectory target

/-- The checks of a request whose names are `names`, with the destination's. -/
def plan (lower : Text → Text) (tag : Metadata β → Nat) (limit : Option Nat) (names onto : List OsName) :
    Request β → Except Status (Change β)
  | .upload conditions _ body => planUpload links tree mount tag limit names conditions body
  | .createDirectory => return .createDirectory (← target links tree mount names)
  | .rename _ overwrite => planRename links tree mount lower names onto overwrite
  | .copy _ overwrite => planCopy links tree mount names onto overwrite
  | .delete recursive => planDelete links tree mount names recursive

/-! ## 3. Carrying out -/

def shown (name : OsName) : OsName := { name with raw := none }

/-- Where a copy puts what a visit is at: below the destination, under the names as they are shown. -/
def landing (source destination : WriteTarget) (visit : Visit β) : FilePath :=
  destination.path ++ (visit.path.drop source.path.length).map shown

def putAt (tree : FileTree β) (path : FilePath) (node : Node OsName (List β)) : Option (FileTree β) :=
  path.getLast?.bind fun name => tree.place path.dropLast name ⟨tree.fresh, node⟩

/-- `fs::create_dir`. -/
def createDirAt (tree : FileTree β) (path : FilePath) : Option (FileTree β) :=
  if (tree.lookup path).isSome then none else putAt tree path .directory

/-- The copy's visitor: `tree` is as the request found it, `copy` as the copy has it so far. -/
def copyVisit (source destination : WriteTarget) (copy : FileTree β) (visit : Visit β) :
    Option (FileTree β) :=
  match visit.walked with
  | .directory _ => createDirAt copy (landing source destination visit)
  | .file path _ => (bytesAt tree path).bind fun bytes =>
    putAt copy (landing source destination visit) (.file bytes)
  -- A copy writes files, so a link stays behind rather than turning into one.
  | .linked _ _ => some copy
  | .excluded => some copy

/-- A directory copied with all it holds but the links and special files in it. -/
def copyDirectory (source destination : WriteTarget) : Option (FileTree β) :=
  (createDirAt tree destination.path).bind fun copy =>
    (walk links tree mount source.path source.relative true).foldlM (copyVisit tree source destination) copy

def carryOut : Change β → Option (FileTree β)
  | .upload target bytes => putAt tree target.path (.file bytes)
  | .createDirectory target => createDirAt tree target.path
  | .rename source destination true => tree.rename source.path destination.parent destination.name
  | .rename source destination false => tree.move source.path destination.parent destination.name
  | .copyFile source destination => (bytesAt tree source.path).bind fun bytes =>
    putAt tree destination.path (.file bytes)
  | .copyDirectory source destination => copyDirectory links tree mount source destination
  | .removeFile target => tree.remove target.path
  | .removeDirectory target => tree.remove target.path
  | .removeAll target => tree.removeAll target.path

/-- A request other than a read, up to the point where it begins to write. -/
def checks (glob : Text → Option (Text → Bool)) (lower : Text → Text) (tag : Metadata β → Nat)
    (resolved : ResolvedMount) (path : Text) (request : Request β) : Except Status (OpenMount × Change β) := do
  let names ← splitPath path
  if resolved.access = .none then .error .notFound
  else if resolved.access ≠ .edit then .error .notPermitted
  else
    let onto ← precheck resolved.maxUpload request
    let mount ← OpenMount.open_ links tree glob resolved
    let change ← plan links tree mount lower tag resolved.maxUpload names onto request
    return (mount, change)

def respond (glob : Text → Option (Text → Bool)) (lower : Text → Text) (tag : Metadata β → Nat)
    (resolved : ResolvedMount) (path : Text) (request : Request β) : Except Status (FileTree β) := do
  let (mount, change) ← checks links tree glob lower tag resolved path request
  match carryOut links tree mount change with
  | some after => return after
  | none => .error .conflict

/-- The tree once the request is answered, which a refused one leaves as it was. -/
def after (glob : Text → Option (Text → Bool)) (lower : Text → Text) (tag : Metadata β → Nat)
    (resolved : ResolvedMount) (path : Text) (request : Request β) : FileTree β :=
  match respond links tree glob lower tag resolved path request with
  | .ok after => after
  | .error _ => tree

end Request

/-! ## 4. What is hidden, and what the walk sees of it -/

section Hidden

variable (mount : OpenMount)

/-- **The path is below the root and a pattern excludes it.** -/
def Hidden (path : FilePath) : Prop :=
  ∃ below, relative mount path = some below ∧ mount.exclusion.excludes below = true

/-- **What is hidden is as before, with its contents, and so is what is outside the root.** -/
structure Untouched (before after : FileTree β) : Prop where
  hidden : ∀ path, Hidden mount path → after.lookup path = before.lookup path
  outside : ∀ path, ¬ mount.canonical <+: path → after.lookup path = before.lookup path

variable {mount}

theorem Untouched.refl (tree : FileTree β) : Untouched mount tree tree := ⟨fun _ _ => rfl, fun _ _ => rfl⟩

theorem not_hidden_of_inside {path : FilePath} (h : Inside mount path) : ¬ Hidden mount path := by
  intro hhidden
  obtain ⟨below, hbelow, hnot⟩ := h
  obtain ⟨other, hother, hexcluded⟩ := hhidden
  rw [hbelow, Option.some.injEq] at hother
  rw [← hother, hnot] at hexcluded
  cases hexcluded

theorem excludesFrom_of_isEmpty {exclusion : FileExclusion} (h : exclusion.isEmpty = true) (below : Text)
    (names : List Text) : ∀ stop, exclusion.excludesFrom below stop names = false := by
  unfold FileExclusion.isEmpty at h
  rw [Bool.and_eq_true, List.isEmpty_iff, List.isEmpty_iff] at h
  induction names with
  | nil => exact fun _ => rfl
  | cons name names ih =>
    intro stop
    rw [FileExclusion.excludesFrom, h.1, h.2, ih]
    rfl

theorem not_hidden_of_isEmpty (h : mount.exclusion.isEmpty = true) (path : FilePath) : ¬ Hidden mount path := by
  intro hhidden
  obtain ⟨below, -, hexcluded⟩ := hhidden
  unfold FileExclusion.excludes at hexcluded
  rw [excludesFrom_of_isEmpty h] at hexcluded
  simp at hexcluded

variable {links : Nat} {tree : FileTree β}

/-- **A walk meets what is hidden below it**, or something hidden above that, unless a name on the way has
    the shape of a part. -/
theorem walkBelow_meets (rest : FilePath) : ∀ {fuel : Nat} {directory : FilePath} {above below : Text}
    {visits : List (Visit β)} {entry : Metadata β}, relative mount directory = some above →
      walkBelow links tree mount true fuel directory above below = some visits → rest ≠ [] →
        tree.lookup (directory ++ rest) = some entry → (∀ name ∈ rest, isPart name.text = false) →
          Hidden mount (directory ++ rest) → ∃ visit ∈ visits, visit.walked = .excluded := by
  induction rest with
  | nil =>
    intro fuel directory above below visits entry _ _ hrest
    exact absurd rfl hrest
  | cons name rest ih =>
    intro fuel directory above below visits entry habove hwalk _ hfound hparts hhidden
    cases fuel with
    | zero => cases hwalk
    | succ fuel =>
      have hsplit : directory ++ name :: rest = (directory ++ [name]) ++ rest := by simp
      rw [hsplit] at hfound hhidden
      have hpart := hparts name List.mem_cons_self
      -- The entry on the way, and what the walk does there.
      have hchild : ∃ child, tree.lookup (directory ++ [name]) = some child ∧
          (rest ≠ [] → child.isDirectory = true) := by
        by_cases hrest : rest = []
        · subst hrest
          rw [List.append_nil] at hfound
          exact ⟨entry, hfound, fun hne => absurd rfl hne⟩
        · obtain ⟨child, hchild, hdirectory⟩ :=
            Tree.isDirectory_iff.mp (Tree.isDirectory_of_above rest hrest hfound)
          exact ⟨child, hchild, fun _ => hdirectory⟩
      obtain ⟨child, hchild, hdirectory⟩ := hchild
      rw [walkBelow] at hwalk
      have hread := Tree.mem_readDir.mpr hchild
      obtain ⟨here, hhere⟩ := (Closure.gather_eq_some hwalk).1 _ hread
      have hmem : ∀ visit ∈ here, visit ∈ visits := fun visit hvisit =>
        ((Closure.gather_eq_some hwalk).2 visit).mpr ⟨_, hread, here, hhere, hvisit⟩
      unfold walkEntry at hhere
      simp only at hhere
      rw [if_neg (by simp [hpart])] at hhere
      by_cases hexcluded : mount.exclusion.excludes (joinName above name.text) = true
      · rw [if_pos hexcluded, Option.some.injEq] at hhere
        exact ⟨_, hmem _ (hhere ▸ List.mem_singleton_self _), rfl⟩
      · rw [if_neg hexcluded] at hhere
        by_cases hrest : rest = []
        · subst hrest
          rw [List.append_nil] at hhidden
          exact absurd hhidden (not_hidden_of_inside (inside_concat habove (by simpa using hexcluded)))
        · rw [if_pos (hdirectory hrest)] at hhere
          obtain ⟨later, hlater, hhere⟩ := Option.map_eq_some_iff.mp hhere
          obtain ⟨visit, hvisit, hwalked⟩ := ih (relative_concat habove name) hlater hrest hfound
            (fun other hother => hparts other (List.mem_cons_of_mem _ hother)) hhidden
          exact ⟨visit, hmem _ (hhere ▸ List.mem_cons_of_mem _ hvisit), hwalked⟩

/-- A target's own path is inside, in a directory of the mount. -/
structure WriteTarget.Sound (tree : FileTree β) (mount : OpenMount) (target : WriteTarget) : Prop where
  parent : tree.isDirectory target.parent = true
  root : mount.canonical <+: target.parent
  own : Files.relative mount target.path = some target.relative
  inside : mount.exclusion.excludes target.relative = false

theorem WriteTarget.Sound.not_hidden {target : WriteTarget} (h : target.Sound tree mount) :
    ¬ Hidden mount target.path :=
  not_hidden_of_inside ⟨_, h.own, h.inside⟩

theorem WriteTarget.Sound.below {target : WriteTarget} (h : target.Sound tree mount) :
    mount.canonical <+: target.path :=
  h.root.trans (List.prefix_append _ _)

theorem target_sound {names : List OsName} {result : WriteTarget}
    (h : target links tree mount names = .ok result) : result.Sound tree mount := by
  unfold target at h
  split at h
  · cases h
  · split at h
    · cases h
    · split at h
      · cases h
      · rename_i parent hadmit
        split at h
        · cases h
        · rename_i hdirectory
          simp only at h
          split at h
          · cases h
          · rename_i hexcluded
            cases h
            obtain ⟨-, above, habove, -⟩ := admit_eq_some.mp hadmit
            refine ⟨by simpa using hdirectory, ?_, ?_, by simpa using hexcluded⟩
            · unfold relative at habove
              split at habove
              · assumption
              · cases habove
            · rw [habove, Option.getD_some]
              exact relative_concat habove _

/-- **A directory that is not refused hides nothing below**, but under the names of parts. -/
theorem not_hidden_of_refuse {target : WriteTarget} (htarget : target.Sound tree mount)
    {metadata : Metadata β} (hfound : tree.lookup target.path = some metadata)
    (h : refuseExcludedBelow links tree mount target metadata = .ok ()) {rest : FilePath}
    {entry : Metadata β} (hentry : tree.lookup (target.path ++ rest) = some entry)
    (hparts : ∀ name ∈ rest, isPart name.text = false) : ¬ Hidden mount (target.path ++ rest) := by
  intro hhidden
  by_cases hrest : rest = []
  · rw [hrest, List.append_nil] at hhidden
    exact htarget.not_hidden hhidden
  · have hdirectory : metadata.isDirectory = true := by
      obtain ⟨other, hother, hdirectory⟩ := Tree.isDirectory_iff.mp (Tree.isDirectory_of_above rest hrest hentry)
      rw [hfound, Option.some.injEq] at hother
      rwa [hother]
    have hempty : mount.exclusion.isEmpty = false := by
      cases hempty : mount.exclusion.isEmpty with
      | false => rfl
      | true => exact absurd hhidden (not_hidden_of_isEmpty hempty _)
    obtain ⟨visit, hvisit, hwalked⟩ :=
      walkBelow_meets rest htarget.own (walk_eq target.path target.relative true) hrest hentry hparts hhidden
    have hholds : holdsExcluded links tree mount target.path target.relative = true :=
      List.any_eq_true.mpr ⟨visit, hvisit, by rw [hwalked]⟩
    unfold refuseExcludedBelow at h
    rw [if_pos ⟨hdirectory, hempty, hholds⟩] at h
    cases h

end Hidden

/-! ## 5. What the checks leave -/

section Plan

variable {links : Nat} {tree : FileTree β} {mount : OpenMount}

variable (links tree mount) in
/-- What the checks have found out about a change they let through. -/
def Change.Checked : Change β → Prop
  | .upload target _ => target.Sound tree mount
  | .createDirectory target => target.Sound tree mount
  | .rename source destination replace =>
    source.Sound tree mount ∧ destination.Sound tree mount ∧
      ∃ moved, tree.lookup source.path = some moved ∧
        (moved.isDirectory = true → ¬ source.path <+: destination.parent) ∧
        refuseExcludedBelow links tree mount source moved = .ok () ∧
        match replace, tree.lookup destination.path with
        | false, found => found = none
        | true, none => False
        | true, some found => found.inode = moved.inode ∨ found.isDirectory = false
  | .copyFile source destination => source.Sound tree mount ∧ destination.Sound tree mount
  | .copyDirectory source destination =>
    source.Sound tree mount ∧ destination.Sound tree mount ∧ tree.lookup destination.path = none
  | .removeFile target => target.Sound tree mount
  | .removeDirectory target => target.Sound tree mount
  | .removeAll target =>
    target.Sound tree mount ∧ ∃ metadata, tree.lookup target.path = some metadata ∧
      refuseExcludedBelow links tree mount target metadata = .ok ()

variable {change : Change β}

theorem planUpload_checked {tag : Metadata β → Nat} {limit : Option Nat} {names : List OsName}
    {conditions : UploadConditions} {body : Option (List β)}
    (h : planUpload links tree mount tag limit names conditions body = .ok change) :
    change.Checked links tree mount := by
  unfold planUpload at h
  obtain ⟨found, hfound, h⟩ := bind_eq_ok h
  split at h
  · cases h
  · obtain ⟨-, -, h⟩ := bind_eq_ok h
    split at h
    · cases h
    · split at h
      · cases h
      · cases h
        exact target_sound hfound

variable {names onto : List OsName}

theorem planRename_checked {lower : Text → Text} {overwrite : Bool}
    (h : planRename links tree mount lower names onto overwrite = .ok change) :
    change.Checked links tree mount := by
  unfold planRename at h
  obtain ⟨source, hsource, h⟩ := bind_eq_ok h
  obtain ⟨destination, hdestination, h⟩ := bind_eq_ok h
  split at h
  · cases h
  · split at h
    · cases h
    · rename_i moved hmoved
      split at h
      · cases h
      · rename_i hinto
        simp only at h
        obtain ⟨replace, hreplace, h⟩ := bind_eq_ok h
        obtain ⟨⟨⟩, hrefuse, h⟩ := bind_eq_ok h
        cases h
        refine ⟨target_sound hsource, target_sound hdestination, moved, hmoved,
          fun hdirectory hpre => hinto ⟨hdirectory, hpre⟩, hrefuse, ?_⟩
        unfold existing at hreplace
        cases hfound : tree.lookup destination.path with
        | none =>
          rw [hfound] at hreplace
          cases hreplace
          rfl
        | some found =>
          rw [hfound, replaces] at hreplace
          split at hreplace
          · rename_i hinode
            split at hreplace
            · cases hreplace
              exact .inl hinode.symm
            · cases hreplace
          · split at hreplace
            · cases hreplace
            · rename_i hdirectory
              cases hreplace
              exact .inr (by simpa using fun h => hdirectory (.inl h))

theorem planCopy_checked {overwrite : Bool}
    (h : planCopy links tree mount names onto overwrite = .ok change) : change.Checked links tree mount := by
  unfold planCopy at h
  obtain ⟨source, hsource, h⟩ := bind_eq_ok h
  obtain ⟨destination, hdestination, h⟩ := bind_eq_ok h
  split at h
  · cases h
  · split at h
    · cases h
    · split at h
      · cases h
      · split at h
        · split at h
          · cases h
            exact ⟨target_sound hsource, target_sound hdestination⟩
          · cases h
        · rename_i hnone
          obtain ⟨-, -, h⟩ := bind_eq_ok h
          split at h
          · cases h
            exact ⟨target_sound hsource, target_sound hdestination⟩
          · cases h
            exact ⟨target_sound hsource, target_sound hdestination, hnone⟩

theorem planDelete_checked {names : List OsName} {recursive : Bool}
    (h : planDelete links tree mount names recursive = .ok change) : change.Checked links tree mount := by
  unfold planDelete at h
  obtain ⟨found, hfound, h⟩ := bind_eq_ok h
  split at h
  · cases h
  · rename_i metadata hmetadata
    split at h
    · cases h
      exact target_sound hfound
    · split at h
      · obtain ⟨⟨⟩, hrefuse, h⟩ := bind_eq_ok h
        cases h
        exact ⟨target_sound hfound, metadata, hmetadata, hrefuse⟩
      · cases h
        exact target_sound hfound

/-- **What the checks let through is checked.** -/
theorem plan_checked {lower : Text → Text} {tag : Metadata β → Nat} {limit : Option Nat} {request : Request β}
    (h : plan links tree mount lower tag limit names onto request = .ok change) :
    change.Checked links tree mount := by
  cases request with
  | upload conditions declared body => exact planUpload_checked h
  | createDirectory =>
    obtain ⟨found, hfound, h⟩ := bind_eq_ok h
    cases h
    exact target_sound hfound
  | rename onto overwrite => exact planRename_checked h
  | copy onto overwrite => exact planCopy_checked h
  | delete recursive => exact planDelete_checked h

end Plan

/-! ## 6. What is carried out -/

section CarryOut

variable {links : Nat} {tree : FileTree β} {mount : OpenMount}

/-- A copy writes at what the visit is at. -/
def Visit.Copied (visit : Visit β) : Prop :=
  match visit.walked with
  | .directory _ => True
  | .file _ _ => True
  | .linked _ _ => False
  | .excluded => False

variable (tree mount) in
/-- Nothing at or below the name of a part is hidden under the target. -/
def PartsClear (target : WriteTarget) : Prop :=
  ∀ rest entry, (∃ name ∈ rest, isPart name.text = true) →
    tree.lookup (target.path ++ rest) = some entry → ¬ Hidden mount (target.path ++ rest)

variable (links tree mount) in
/-- **What is to be done spares what is hidden**: nothing hidden is under the name of a part where a
    directory is removed or moved, and no entry of a moved or copied directory comes to a hidden path,
    unless the copy fails on two names that are shown alike. -/
def Change.Spares : Change β → Prop
  | .rename source destination false =>
    PartsClear tree mount source ∧
      ∀ rest entry, tree.lookup (source.path ++ rest) = some entry → ¬ Hidden mount (destination.path ++ rest)
  | .copyDirectory source destination =>
    FileWrites.copyDirectory links tree mount source destination = none ∨
      ∀ visit ∈ walk links tree mount source.path source.relative true, Visit.Copied visit →
        ¬ Hidden mount (landing source destination visit)
  | .removeAll target => PartsClear tree mount target
  | _ => True

theorem lookup_below_none {path rest : FilePath} {entry : Metadata β} (h : tree.lookup path = some entry)
    (hdirectory : entry.isDirectory = false) (hrest : rest ≠ []) : tree.lookup (path ++ rest) = none := by
  cases hfound : tree.lookup (path ++ rest) with
  | none => rfl
  | some found =>
    obtain ⟨other, hother, hnot⟩ := Tree.isDirectory_iff.mp (Tree.isDirectory_of_above rest hrest hfound)
    rw [h, Option.some.injEq] at hother
    rw [← hother, hdirectory] at hnot
    cases hnot

variable {target : WriteTarget}

theorem Untouched.of_one {after : FileTree β} (htarget : target.Sound tree mount)
    (h : ∀ path, path ≠ target.path → after.lookup path = tree.lookup path) : Untouched mount tree after where
  hidden := fun path hhidden => h path fun heq => htarget.not_hidden (heq ▸ hhidden)
  outside := fun path houtside => h path fun heq => houtside (heq ▸ htarget.below)

theorem lookup_putAt {after : FileTree β} {path : FilePath} {node : Node OsName (List β)}
    (h : putAt tree path node = some after) (other : FilePath) :
    after.lookup other = if path = other then some ⟨tree.fresh, node⟩ else tree.lookup other := by
  obtain ⟨name, hname, h⟩ := Option.bind_eq_some_iff.mp h
  rw [Tree.lookup_place h, List.dropLast_append_getLast? name hname]

theorem createDirAt_eq_some {after : FileTree β} {path : FilePath} (h : createDirAt tree path = some after) :
    tree.lookup path = none ∧ putAt tree path .directory = some after := by
  unfold createDirAt at h
  split at h
  · cases h
  · rename_i hfound
    exact ⟨by simpa using hfound, h⟩

theorem Untouched.of_putAt (htarget : target.Sound tree mount) {node : Node OsName (List β)}
    {after : FileTree β} (h : putAt tree target.path node = some after) : Untouched mount tree after :=
  Untouched.of_one htarget fun path hne => by rw [lookup_putAt h, if_neg (Ne.symm hne)]

theorem Untouched.of_remove (htarget : target.Sound tree mount) {after : FileTree β}
    (h : tree.remove target.path = some after) : Untouched mount tree after :=
  Untouched.of_one htarget fun path hne => by rw [Tree.lookup_remove h, if_neg (Ne.symm hne)]

variable {source destination : WriteTarget}

theorem copyVisit_spec {copy next : FileTree β} {visit : Visit β}
    (h : copyVisit tree source destination copy visit = some next) :
    (Visit.Copied visit ∧ ∃ entry, ∀ path, next.lookup path =
      if landing source destination visit = path then some entry else copy.lookup path) ∨
    (¬ Visit.Copied visit ∧ next = copy) := by
  unfold copyVisit at h
  unfold Visit.Copied
  split at h
  · exact .inl ⟨trivial, _, lookup_putAt (createDirAt_eq_some h).2⟩
  · obtain ⟨bytes, -, h⟩ := Option.bind_eq_some_iff.mp h
    exact .inl ⟨trivial, _, lookup_putAt h⟩
  · exact .inr ⟨fun hfalse => hfalse, (Option.some.inj h).symm⟩
  · exact .inr ⟨fun hfalse => hfalse, (Option.some.inj h).symm⟩

/-- What a whole copy changes: the places it comes to, each of which is taken afterwards. -/
theorem foldlM_copyVisit_spec (visits : List (Visit β)) :
    ∀ {copy after : FileTree β}, visits.foldlM (copyVisit tree source destination) copy = some after →
      (∀ path, (∀ visit ∈ visits, Visit.Copied visit → landing source destination visit ≠ path) →
        after.lookup path = copy.lookup path) ∧ (∀ path, copy.lookup path ≠ none → after.lookup path ≠ none) ∧
      ∀ visit ∈ visits, Visit.Copied visit → after.lookup (landing source destination visit) ≠ none := by
  induction visits with
  | nil =>
    intro copy after h
    cases h
    exact ⟨fun _ _ => rfl, fun _ hne => hne, fun _ hnone => by cases hnone⟩
  | cons first visits ih =>
    intro copy after h
    rw [List.foldlM_cons] at h
    obtain ⟨next, hnext, h⟩ := Option.bind_eq_some_iff.mp h
    obtain ⟨hsame, hkept, hcopied⟩ := ih h
    rcases copyVisit_spec hnext with ⟨hfirst, entry, hlookup⟩ | ⟨hfirst, rfl⟩
    · refine ⟨fun path hpath => ?_, fun path hne => hkept path ?_, fun visit hvisit hcopy => ?_⟩
      · rw [hsame path fun visit hvisit => hpath visit (List.mem_cons_of_mem _ hvisit), hlookup,
          if_neg (hpath first List.mem_cons_self hfirst)]
      · rw [hlookup]
        split
        · exact Option.some_ne_none _
        · exact hne
      · rcases List.mem_cons.mp hvisit with rfl | hvisit
        · refine hkept _ ?_
          rw [hlookup, if_pos rfl]
          exact Option.some_ne_none _
        · exact hcopied visit hvisit hcopy
    · refine ⟨fun path hpath => ?_, hkept, fun visit hvisit hcopy => ?_⟩
      · exact hsame path fun visit hvisit => hpath visit (List.mem_cons_of_mem _ hvisit)
      · rcases List.mem_cons.mp hvisit with rfl | hvisit
        · exact absurd hcopy hfirst
        · exact hcopied visit hvisit hcopy

/-- **A move**: what is hidden stays as it is exactly when the move spares it. -/
theorem move_untouched_iff (hsource : source.Sound tree mount) (hdestination : destination.Sound tree mount)
    {moved : Metadata β} (hmoved : tree.lookup source.path = some moved)
    (hrefuse : refuseExcludedBelow links tree mount source moved = .ok ())
    (hfree : tree.lookup destination.path = none) {after : FileTree β}
    (h : tree.move source.path destination.parent destination.name = some after) :
    Untouched mount tree after ↔ (Change.rename source destination false : Change β).Spares links tree mount := by
  have hlookup : ∀ path, after.lookup path =
      if destination.path <+: path then tree.lookup (source.path ++ path.drop destination.path.length)
      else if source.path <+: path then none else tree.lookup path := Tree.lookup_move h
  have hbelow : ∀ {path : FilePath} {entry : Metadata β}, tree.lookup path = some entry →
      ¬ destination.path <+: path := fun hfound => Tree.not_prefix_of_lookup hfree hfound
  constructor
  · intro huntouched
    constructor
    · intro rest entry _ hfound hhidden
      have hsame := huntouched.hidden _ hhidden
      rw [hlookup, if_neg (hbelow hfound), if_pos (List.prefix_append _ _), hfound] at hsame
      cases hsame
    · intro rest entry hfound hhidden
      have hsame := huntouched.hidden _ hhidden
      rw [hlookup, if_pos (List.prefix_append _ _), List.drop_left, hfound] at hsame
      exact absurd (List.prefix_append _ _) (hbelow hsame.symm)
  · intro hspares
    constructor
    · intro path hhidden
      rw [hlookup]
      split
      · rename_i hpre
        obtain ⟨rest, rfl⟩ := hpre
        rw [List.drop_left]
        cases hfound : tree.lookup (source.path ++ rest) with
        | some entry => exact absurd hhidden (hspares.2 rest entry hfound)
        | none =>
          cases hnew : tree.lookup (destination.path ++ rest) with
          | none => rfl
          | some entry => exact absurd (List.prefix_append _ _) (hbelow hnew)
      · split
        · rename_i hpre
          obtain ⟨rest, rfl⟩ := hpre
          cases hfound : tree.lookup (source.path ++ rest) with
          | none => rfl
          | some entry =>
            -- Under the name of a part the walk has not looked, elsewhere it has.
            by_cases hpart : ∃ name ∈ rest, isPart name.text = true
            · exact absurd hhidden (hspares.1 rest entry hpart hfound)
            · refine absurd hhidden (not_hidden_of_refuse hsource hmoved hrefuse hfound fun name hname => ?_)
              exact eq_false_of_ne_true fun htrue => hpart ⟨name, hname, htrue⟩
        · rfl
    · intro path houtside
      rw [hlookup, if_neg fun hpre => houtside (hdestination.below.trans hpre),
        if_neg fun hpre => houtside (hsource.below.trans hpre)]

/-- A rename over a file or a link changes two names inside. -/
theorem rename_untouched (hsource : source.Sound tree mount) (hdestination : destination.Sound tree mount)
    {moved existing : Metadata β} (hmoved : tree.lookup source.path = some moved)
    (hexisting : tree.lookup destination.path = some existing)
    (hkind : existing.inode = moved.inode ∨ existing.isDirectory = false) {after : FileTree β}
    (h : tree.rename source.path destination.parent destination.name = some after) :
    Untouched mount tree after := by
  have hfound : tree.lookup (destination.parent ++ [destination.name]) = some existing := hexisting
  unfold Tree.rename at h
  rw [hmoved, hfound] at h
  simp only at h
  split at h
  · cases h
    exact Untouched.refl tree
  · rename_i hinode
    have hfile := hkind.resolve_left hinode
    split at h
    · rename_i hsame
      rw [hfile] at hsame
      obtain ⟨cleared, hcleared, h⟩ := Option.bind_eq_some_iff.mp h
      have hone : ∀ path, path ≠ source.path → path ≠ destination.path → after.lookup path = tree.lookup path := by
        intro path hnotsource hnotdestination
        have hkept : cleared.lookup path = tree.lookup path := by
          rw [Tree.lookup_remove hcleared]
          exact if_neg (Ne.symm hnotdestination)
        rw [Tree.lookup_move h]
        split
        · rename_i hpre
          obtain ⟨rest, rfl⟩ := hpre
          have hrest : rest ≠ [] := fun hnil => hnotdestination (by rw [hnil, List.append_nil]; rfl)
          rw [List.drop_left, Tree.lookup_remove hcleared, lookup_below_none hmoved hsame hrest,
            lookup_below_none hfound hfile hrest, ite_self]
        · split
          · rename_i hpre
            obtain ⟨rest, rfl⟩ := hpre
            have hrest : rest ≠ [] := fun hnil => hnotsource (by rw [hnil, List.append_nil])
            rw [lookup_below_none hmoved hsame hrest]
          · exact hkept
      exact ⟨fun path hhidden => hone path (fun heq => hsource.not_hidden (heq ▸ hhidden))
          (fun heq => hdestination.not_hidden (heq ▸ hhidden)),
        fun path houtside => hone path (fun heq => houtside (heq ▸ hsource.below))
          (fun heq => houtside (heq ▸ hdestination.below))⟩
    · cases h

/-- **A copy of a directory** leaves what is hidden exactly when it comes to no hidden path. -/
theorem copyDirectory_untouched_iff (hdestination : destination.Sound tree mount)
    (hfree : tree.lookup destination.path = none) {after : FileTree β}
    (h : copyDirectory links tree mount source destination = some after) :
    Untouched mount tree after ↔ ∀ visit ∈ walk links tree mount source.path source.relative true,
      Visit.Copied visit → ¬ Hidden mount (landing source destination visit) := by
  obtain ⟨copy, hcopy, h⟩ := Option.bind_eq_some_iff.mp h
  obtain ⟨hsame, -, hcopied⟩ := foldlM_copyVisit_spec _ h
  have htop := lookup_putAt (createDirAt_eq_some hcopy).2
  have hlanding : ∀ visit : Visit β, destination.path <+: landing source destination visit :=
    fun visit => List.prefix_append _ _
  constructor
  · intro huntouched visit hvisit hcopy hhidden
    have hnew := hcopied visit hvisit hcopy
    rw [huntouched.hidden _ hhidden] at hnew
    obtain ⟨entry, hentry⟩ := Option.ne_none_iff_exists'.mp hnew
    exact Tree.not_prefix_of_lookup hfree hentry (hlanding visit)
  · intro hspares
    constructor
    · intro path hhidden
      have hnottop : destination.path ≠ path := fun heq => hdestination.not_hidden (heq ▸ hhidden)
      rw [hsame path fun visit hvisit hcopy heq => hspares visit hvisit hcopy (heq ▸ hhidden), htop,
        if_neg hnottop]
    · intro path houtside
      have hnottop : destination.path ≠ path := fun heq => houtside (heq ▸ hdestination.below)
      rw [hsame path fun visit _ _ heq =>
        houtside (heq ▸ hdestination.below.trans (hlanding visit)), htop, if_neg hnottop]

/-- **A directory removed with all below it.** -/
theorem removeAll_untouched_iff (htarget : target.Sound tree mount) {metadata : Metadata β}
    (hmetadata : tree.lookup target.path = some metadata)
    (hrefuse : refuseExcludedBelow links tree mount target metadata = .ok ()) {after : FileTree β}
    (h : tree.removeAll target.path = some after) :
    Untouched mount tree after ↔ PartsClear tree mount target := by
  have hlookup := Tree.lookup_removeAll h
  constructor
  · intro huntouched rest entry _ hfound hhidden
    have hsame := huntouched.hidden _ hhidden
    rw [hlookup, if_pos (List.prefix_append _ _), hfound] at hsame
    cases hsame
  · intro hclear
    constructor
    · intro path hhidden
      rw [hlookup]
      split
      · rename_i hpre
        obtain ⟨rest, rfl⟩ := hpre
        cases hfound : tree.lookup (target.path ++ rest) with
        | none => rfl
        | some entry =>
          by_cases hpart : ∃ name ∈ rest, isPart name.text = true
          · exact absurd hhidden (hclear rest entry hpart hfound)
          · refine absurd hhidden (not_hidden_of_refuse htarget hmetadata hrefuse hfound fun name hname => ?_)
            exact eq_false_of_ne_true fun htrue => hpart ⟨name, hname, htrue⟩
      · rfl
    · intro path houtside
      rw [hlookup, if_neg fun hpre => houtside (htarget.below.trans hpre)]

/-- A move that the checks let through is made. -/
theorem move_isSome (hdestination : destination.Sound tree mount) {moved : Metadata β}
    (hmoved : tree.lookup source.path = some moved)
    (hinto : moved.isDirectory = true → ¬ source.path <+: destination.parent)
    (hfree : tree.lookup destination.path = none) :
    ∃ after, tree.move source.path destination.parent destination.name = some after := by
  have hne : source.path ≠ [] := by simp [WriteTarget.path]
  have hnot : ¬ source.path <+: destination.parent := by
    intro hpre
    -- Only a directory is on the way to a directory.
    have hdirectory : tree.isDirectory source.path = true := by
      obtain ⟨rest, hrest⟩ := hpre
      have hparent := hdestination.parent
      rw [← hrest] at hparent
      by_cases hnil : rest = []
      · rwa [hnil, List.append_nil] at hparent
      · obtain ⟨entry, hfound, -⟩ := Tree.isDirectory_iff.mp hparent
        exact Tree.isDirectory_of_above rest hnil hfound
    obtain ⟨other, hother, hkind⟩ := Tree.isDirectory_iff.mp hdirectory
    rw [hmoved, Option.some.injEq] at hother
    exact hinto (hother ▸ hkind) hpre
  unfold Tree.move
  rw [dif_pos ⟨hne, hdestination.parent, hnot, hfree⟩]
  exact ⟨_, rfl⟩

/-- **What is carried out leaves the hidden entries and the outside untouched exactly when it spares
    them.** -/
theorem carryOut_untouched_iff {change : Change β} (hchecked : change.Checked links tree mount) :
    Untouched mount tree ((carryOut links tree mount change).getD tree) ↔ change.Spares links tree mount := by
  -- What fails leaves the tree as it is.
  have halways : ∀ {result : Option (FileTree β)},
      (∀ after, result = some after → Untouched mount tree after) → Untouched mount tree (result.getD tree) := by
    intro result h
    cases result with
    | none => exact Untouched.refl tree
    | some after => exact h after rfl
  cases change with
  | upload target bytes => exact iff_of_true (halways fun _ h => Untouched.of_putAt hchecked h) trivial
  | createDirectory target =>
    exact iff_of_true (halways fun _ h => Untouched.of_putAt hchecked (createDirAt_eq_some h).2) trivial
  | rename source destination replace =>
    obtain ⟨hsource, hdestination, moved, hmoved, hinto, hrefuse, hreplace⟩ := hchecked
    cases replace with
    | false =>
      have hfree : tree.lookup destination.path = none := hreplace
      obtain ⟨after, hafter⟩ := move_isSome hdestination hmoved hinto hfree
      have hout : carryOut links tree mount (.rename source destination false) = some after := hafter
      rw [hout]
      exact move_untouched_iff hsource hdestination hmoved hrefuse hfree hafter
    | true =>
      cases hfound : tree.lookup destination.path with
      | none =>
        rw [hfound] at hreplace
        exact hreplace.elim
      | some existing =>
        rw [hfound] at hreplace
        exact iff_of_true
          (halways fun _ h => rename_untouched hsource hdestination hmoved hfound hreplace h) trivial
  | copyFile source destination =>
    refine iff_of_true (halways fun _ h => ?_) trivial
    obtain ⟨bytes, -, h⟩ := Option.bind_eq_some_iff.mp h
    exact Untouched.of_putAt hchecked.2 h
  | copyDirectory source destination =>
    obtain ⟨-, hdestination, hfree⟩ := hchecked
    have hout : carryOut links tree mount (.copyDirectory source destination) =
      copyDirectory links tree mount source destination := rfl
    rw [hout]
    cases hcopy : copyDirectory links tree mount source destination with
    | none => exact iff_of_true (Untouched.refl tree) (.inl hcopy)
    | some after =>
      have hiff := copyDirectory_untouched_iff hdestination hfree hcopy
      refine hiff.trans ⟨.inr, fun hspares => hspares.resolve_left ?_⟩
      rw [hcopy]
      exact Option.some_ne_none _
  | removeFile target => exact iff_of_true (halways fun _ h => Untouched.of_remove hchecked h) trivial
  | removeDirectory target => exact iff_of_true (halways fun _ h => Untouched.of_remove hchecked h) trivial
  | removeAll target =>
    obtain ⟨htarget, metadata, hmetadata, hrefuse⟩ := hchecked
    have hne : target.path ≠ [] := by simp [WriteTarget.path]
    have hsome : ∃ after, tree.removeAll target.path = some after := by
      unfold Tree.removeAll
      rw [dif_pos hne]
      exact ⟨_, rfl⟩
    obtain ⟨after, hafter⟩ := hsome
    have hout : carryOut links tree mount (.removeAll target) = some after := hafter
    rw [hout]
    exact removeAll_untouched_iff htarget hmetadata hrefuse hafter

theorem checks_checked {glob : Text → Option (Text → Bool)} {lower : Text → Text} {tag : Metadata β → Nat}
    {resolved : ResolvedMount} {path : Text} {request : Request β} {change : Change β}
    (h : checks links tree glob lower tag resolved path request = .ok (mount, change)) :
    OpenMount.open_ links tree glob resolved = .ok mount ∧ change.Checked links tree mount := by
  unfold checks at h
  obtain ⟨names, -, h⟩ := bind_eq_ok h
  split at h
  · cases h
  · split at h
    · cases h
    · obtain ⟨onto, -, h⟩ := bind_eq_ok h
      obtain ⟨opened, hopened, h⟩ := bind_eq_ok h
      obtain ⟨planned, hplanned, h⟩ := bind_eq_ok h
      cases h
      exact ⟨hopened, plan_checked hplanned⟩

/-- **A write leaves what the patterns exclude, and what is outside the root, untouched exactly when what
    its checks let through spares it.** -/
theorem writes_untouched (links : Nat) (tree : FileTree β) (glob : Text → Option (Text → Bool))
    (lower : Text → Text) (tag : Metadata β → Nat) (resolved : ResolvedMount) (path : Text)
    (request : Request β) (mount : OpenMount) (hopen : OpenMount.open_ links tree glob resolved = .ok mount) :
    Untouched mount tree (after links tree glob lower tag resolved path request) ↔
      ∀ change, checks links tree glob lower tag resolved path request = .ok (mount, change) →
        change.Spares links tree mount := by
  unfold after respond
  cases hchecks : checks links tree glob lower tag resolved path request with
  | error status => exact iff_of_true (Untouched.refl tree) fun _ hnone => by cases hnone
  | ok result =>
    obtain ⟨opened, change⟩ := result
    obtain ⟨hopened, hchecked⟩ := checks_checked hchecks
    rw [hopen, Except.ok.injEq] at hopened
    subst hopened
    have hiff := carryOut_untouched_iff hchecked
    have hspares : (∀ other, (.ok (mount, change) : Except Status (OpenMount × Change β)) =
        .ok (mount, other) → other.Spares links tree mount) ↔ change.Spares links tree mount := by
      constructor
      · exact fun h => h change rfl
      · intro h other heq
        cases heq
        exact h
    rw [hspares, ← hiff]
    simp only [bind, Except.bind]
    cases carryOut links tree mount change with
    | none => exact Iff.rfl
    | some after => exact Iff.rfl

end CarryOut

/-! ## 7. Writes that do not spare -/

namespace Sample

def root : OsName := ⟨['n'], none, by decide⟩

def directory : OsName := ⟨['d'], none, by decide⟩

def other : OsName := ⟨['e'], none, by decide⟩

def raw : OsName := ⟨['w'], none, by decide⟩

/-- The name an interrupted upload of `a` leaves behind. -/
def part : OsName := ⟨".a.00000000-0000-0000-0000-000000000000.part".toList, none, by decide⟩

def tree (file : OsName) : FileTree Nat where
  entries := [([], ⟨0, .directory⟩), ([root], ⟨1, .directory⟩), ([root, directory], ⟨2, .directory⟩),
    ([root, directory, file], ⟨3, .file [7]⟩)]
  nodup := by simp [Dict.keys]
  root := rfl
  closed := by simp [isDirectoryIn, Dict.get, Entry.isDirectory]

def resolved (pattern : Text) : ResolvedMount := ⟨[.down root], .edit, [pattern], none, false⟩

def mount (exclusion : FileExclusion) : OpenMount := ⟨[root], exclusion, false⟩

end Sample

/-- **A file with the name of a part, which a pattern excludes, goes with its directory.** -/
theorem part_deleted :
    ∃ mount, OpenMount.open_ 0 (Sample.tree Sample.part) Files.Sample.literal
        (Sample.resolved Sample.part.text) = .ok mount ∧
      Hidden mount [Sample.root, Sample.directory, Sample.part] ∧
      ¬ Untouched mount (Sample.tree Sample.part)
        (after 0 (Sample.tree Sample.part) Files.Sample.literal id (fun _ => 0)
          (Sample.resolved Sample.part.text) ['d'] (.delete true)) := by
  have hhidden : Hidden (Sample.mount ⟨[fun text => decide (text = Sample.part.text)], []⟩)
      [Sample.root, Sample.directory, Sample.part] := ⟨_, rfl, by decide⟩
  refine ⟨Sample.mount ⟨[fun text => decide (text = Sample.part.text)], []⟩, rfl, hhidden, fun h => ?_⟩
  have hsame := h.hidden _ hhidden
  have hgone : ((after 0 (Sample.tree Sample.part) Files.Sample.literal id (fun _ => 0)
      (Sample.resolved Sample.part.text) ['d'] (.delete true)).lookup
        [Sample.root, Sample.directory, Sample.part]).isSome = false := by decide
  rw [hsame] at hgone
  revert hgone
  decide

/-- **A file that is excluded at `e/w` only comes there when its directory `d` is renamed.** -/
theorem moved_under_pattern :
    ∃ mount, OpenMount.open_ 0 (Sample.tree Sample.raw) Files.Sample.literal
        (Sample.resolved ['e', '/', 'w']) = .ok mount ∧
      ¬ Untouched mount (Sample.tree Sample.raw)
        (after 0 (Sample.tree Sample.raw) Files.Sample.literal id (fun _ => 0)
          (Sample.resolved ['e', '/', 'w']) ['d'] (.rename ['e'] false)) := by
  refine ⟨Sample.mount ⟨[], [fun text => decide (text = ['e', '/', 'w'])]⟩, rfl, fun h => ?_⟩
  have hspares := (writes_untouched 0 (Sample.tree Sample.raw) Files.Sample.literal id (fun _ => 0)
    (Sample.resolved ['e', '/', 'w']) ['d'] (.rename ['e'] false) _ rfl).mp h
    (.rename ⟨[Sample.root], Sample.directory, ['d']⟩ ⟨[Sample.root], Sample.other, ['e']⟩ false) rfl
  exact hspares.2 [Sample.raw] _ rfl ⟨_, rfl, by decide⟩

end Ceres.Server.FileWrites
