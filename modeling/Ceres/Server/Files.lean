/-
  File:      Ceres/Server/Files.lean
  Subject:   READS OF THE FILE BROWSER (`rust/ceres-server/src/api/files.rs`: `OpenMount`; `FileExclusion` of
             `rust/ceres-config/src/files.rs`).

  A read names an entry below a mount's root. It is listed, described, served or packed into an archive
  as it stands in the tree, which does not change meanwhile; a link is resolved wherever one is met.

  * `FileExclusion`, `OpenMount` -- what the mount hides, and the root all paths start from;
  * `find`, `list`, `describe`, `walkBelow`, `writeArchive`, `read` -- the request, as the code has it;
  * `Inside` -- below the canonical root, at a path that no pattern excludes;
  * `walkBelow_enough` -- the walk ends, since it enters no link;
  * **`reads_stay_inside`** -- nothing that is served, described, listed or packed is outside.
-/
import Mathlib.Data.Char
import Mathlib.Data.List.Lex
import Ceres.Library.Closure
import Ceres.Library.Fallible
import Ceres.Library.FileSystem
import Ceres.Library.Wildcard

namespace Ceres.Server.Files

open Ceres.Library
open Ceres.Library.FileSystem

set_option linter.unusedSectionVars false

/-! ## 1. Names -/

/-- What `split_path` takes for one name: no separator and no NUL in it, neither `.` nor `..`. -/
def Normal (name : Text) : Bool :=
  decide (name ≠ [] ∧ name ≠ ['.'] ∧ name ≠ ['.', '.'] ∧ '/' ∉ name ∧ '\x00' ∉ name)

/-- A name as the system has it. One that is not UTF-8 is shown by a text with replacement characters,
    and `raw` tells it from the others that are shown so. -/
structure OsName where
  /-- `to_string_lossy`. -/
  text : Text
  raw : Option Nat
  normal : Normal text = true
  deriving DecidableEq

abbrev FilePath : Type := Path OsName

/-- The status of a refused request. -/
inductive Status where
  | badRequest
  | notPermitted
  | notFound
  | conflict
  | preconditionFailed
  | payloadTooLarge
  | internal
  deriving DecidableEq

/-- One name of a captured path. -/
def splitName (name : Text) : Except Status OsName :=
  if h : Normal name = true then .ok ⟨name, none, h⟩ else .error .badRequest

def splitPath (path : Text) : Except Status (List OsName) :=
  if path = [] then .ok [] else (path.splitOn '/').mapM splitName

/-- The names of a path joined by `/`. -/
def joined (path : FilePath) : Text := ['/'].intercalate (path.map OsName.text)

/-- The walk's `join`. -/
def joinName (above name : Text) : Text := if above = [] then name else above ++ '/' :: name

/-- The two parts around the last `c`. -/
def rsplitOnce (c : Char) (text : Text) : Option (Text × Text) :=
  match text.reverse.span (fun d => d != c) with
  | (_, []) => none
  | (back, _ :: front) => some (front.reverse, back.reverse)

def stripSuffix (suffix text : Text) : Option Text :=
  if suffix <:+ text then some (text.take (text.length - suffix.length)) else none

def isHex (c : Char) : Bool :=
  ('0' ≤ c && c ≤ '9') || ('a' ≤ c && c ≤ 'f') || ('A' ≤ c && c ≤ 'F')

/-- The form of a UUID in 36 characters. -/
def isUuid (id : Text) : Bool :=
  decide (id.length = 36) && (id.zipIdx.all fun (c, i) =>
    if i = 8 ∨ i = 13 ∨ i = 18 ∨ i = 23 then c == '-' else isHex c)

/-- Whether `name` has the shape of an upload's part, `.<name>.<uuid>.part`. -/
def isPart (name : Text) : Bool :=
  match name with
  | '.' :: name =>
    match (stripSuffix ".part".toList name).bind (rsplitOnce '.') with
    | some (target, id) => !target.isEmpty && isUuid id
    | none => false
  | _ => false

/-! ## 2. Exclusions -/

/-- The compiled `exclude` patterns. -/
structure FileExclusion where
  /-- Patterns without a `/`, matched against each component of a path. -/
  names : List (Text → Bool)
  /-- Patterns with a `/`, matched against each leading run of components. -/
  anchored : List (Text → Bool)

namespace FileExclusion

/-- `glob` compiles one pattern, a `/` in a text being matched by a `/` only. -/
def new (glob : Text → Option (Text → Bool)) : List Text → Option FileExclusion
  | [] => some ⟨[], []⟩
  | pattern :: patterns => do
    let compiled ← glob (if pattern.head? = some '/' then pattern.tail else pattern)
    let rest ← new glob patterns
    return if '/' ∈ pattern then { rest with anchored := compiled :: rest.anchored }
      else { rest with names := compiled :: rest.names }

/-- Whether no pattern was given. -/
def isEmpty (exclusion : FileExclusion) : Bool := exclusion.names.isEmpty && exclusion.anchored.isEmpty

/-- The loop over the components from `stop` on. -/
def excludesFrom (exclusion : FileExclusion) (relative : Text) : Nat → List Text → Bool
  | _, [] => false
  | stop, name :: names =>
    exclusion.names.any (· name) || exclusion.anchored.any (· (relative.take (stop + name.length))) ||
      excludesFrom exclusion relative (stop + name.length + 1) names

def excludes (exclusion : FileExclusion) (relative : Text) : Bool :=
  if relative = [] then false else excludesFrom exclusion relative 0 (relative.splitOn '/')

end FileExclusion

/-! ## 3. Mounts and requests -/

inductive MountAccess where
  | none
  | view
  | edit
  deriving DecidableEq

/-- Where a mount lives and what the caller may do there, as the host resolved it. -/
structure ResolvedMount where
  path : List (Step OsName)
  access : MountAccess
  exclude : List Text
  maxUpload : Option Nat
  revealPaths : Bool

structure FileQuery where
  after : Option Text
  stat : Bool
  download : Bool
  directory : Bool
  recursive : Bool
  overwrite : Bool
  hidden : Bool
  entries : List Text

inductive EntryKind where
  | file
  | directory
  | other
  deriving DecidableEq

structure FileEntry where
  name : Text
  kind : EntryKind
  size : Option Nat

structure FileStat where
  entry : FileEntry
  path : Option Text

structure FileListing where
  entries : List FileEntry
  truncated : Bool

/-- A directory's download, or a download of some of its entries. -/
structure Archive where
  directory : FilePath
  relative : Text
  entries : List OsName
  hidden : Bool
  name : Text

inductive Found where
  | listing (listing : FileListing)
  | stat (stat : FileStat)
  | file (path : FilePath) (name : Text)
  | archive (archive : Archive)

/-- One entry a listing may keep. -/
structure Candidate where
  name : Text
  path : FilePath
  unicode : Bool

/-- Most entries one listing returns. -/
def listingCap : Nat := 10000

/-- A mount opened for one request, its root's canonical path and exclusions. -/
structure OpenMount where
  canonical : FilePath
  exclusion : FileExclusion
  revealPaths : Bool

variable {β : Type}

abbrev FileTree (β : Type) : Type := Tree OsName (List β)

abbrev Metadata (β : Type) : Type := Entry OsName (List β)

def kindOf (metadata : Metadata β) : EntryKind :=
  if metadata.isFile then .file else if metadata.isDirectory then .directory else .other

/-- The length in bytes. -/
def len (metadata : Metadata β) : Nat :=
  match metadata.node with
  | .file content => content.length
  | _ => 0

def FileEntry.new (name : Text) (kind : EntryKind) (metadata : Option (Metadata β)) : FileEntry where
  name := name
  kind := kind
  size := match kind with
    | .file => metadata.map len
    | _ => none

/-- One entry a walk reaches. -/
inductive Walked (β : Type) where
  | file (path : FilePath) (metadata : Metadata β)
  | linked (path : FilePath) (metadata : Metadata β)
  | directory (metadata : Metadata β)
  | excluded

/-- What a walk calls its visitor with, and the entry it stands at. -/
structure Visit (β : Type) where
  below : Text
  path : FilePath
  walked : Walked β

/-- A member of an archive: its name there, the entry it comes from and, unless it is a directory, the
    file its bytes are read from. -/
structure Member (β : Type) where
  name : Text
  path : FilePath
  bytes : Option (FilePath × List β)

inductive Answer (β : Type) where
  | listing (listing : FileListing)
  | stat (stat : FileStat)
  | file (path : FilePath) (name : Text) (bytes : List β)
  /-- The members written, and whether the archive was written to its end. -/
  | archive (name : Text) (members : List (Member β)) (whole : Bool)

/-! ## 4. The read path -/

section Read

variable (links : Nat) (tree : FileTree β)

/-- `glob` compiles a pattern. -/
def OpenMount.open_ (glob : Text → Option (Text → Bool)) (resolved : ResolvedMount) :
    Except Status OpenMount :=
  match FileExclusion.new glob resolved.exclude with
  | none => .error .internal
  | some exclusion =>
    match resolve tree links [] resolved.path with
    | none => .error .notFound
    | some canonical => .ok ⟨canonical, exclusion, resolved.revealPaths⟩

variable (mount : OpenMount)

/-- The `/`-joined path of `canonical` under the root, `none` when it lies outside. -/
def relative (canonical : FilePath) : Option Text :=
  if mount.canonical <+: canonical then some (joined (canonical.drop mount.canonical.length)) else none

/-- `admit`: the canonical path, `none` when it is missing, leaves the root, or is excluded. -/
def admitPath (path : FilePath) : Option FilePath := do
  let canonical ← canonicalize tree links path
  let relative ← relative mount canonical
  if mount.exclusion.excludes relative then none else some canonical

/-- Describe one listed entry, `none` for a symlink into an excluded path. -/
def describe (candidate : Candidate) : Option FileEntry :=
  if candidate.unicode = false then some (FileEntry.new candidate.name .other (none : Option (Metadata β)))
  else
    match tree.lookup candidate.path with
    | none => some (FileEntry.new candidate.name .other (none : Option (Metadata β)))
    | some metadata =>
      if metadata.isSymlink = false then
        some (FileEntry.new candidate.name (kindOf metadata) (some metadata))
      else
        -- A link takes its target's kind only while the target stays inside the root.
        match canonicalize tree links candidate.path with
        | none => some (FileEntry.new candidate.name .other (some metadata))
        | some canonical =>
          match relative mount canonical with
          | none => some (FileEntry.new candidate.name .other (some metadata))
          | some relative =>
            if mount.exclusion.excludes relative then none
            else (tree.lookup canonical).map fun target =>
              FileEntry.new candidate.name (kindOf target) (some target)

/-- The heap after one more candidate: the first of them by name. -/
def keep (kept : List Candidate) (candidate : Candidate) : List Candidate :=
  let kept := kept.orderedInsert (fun a b => a.name ≤ b.name) candidate
  if listingCap + 1 < kept.length then kept.dropLast else kept

/-- The loop of `list` over one entry of the directory; `swept` is what `sweep_if_stale` answers. -/
def listEntry (swept : FilePath → Bool) (directory : FilePath) (after : Option Text)
    (kept : List Candidate) (child : OsName × Metadata β) : List Candidate :=
  let above := (relative mount directory).getD []
  let front := if above = [] then [] else above ++ ['/']
  let name := child.1.text
  let unicode := child.1.raw.isNone
  let path := directory ++ [child.1]
  if (unicode && isPart name && swept path) || after.any (fun after => decide (name ≤ after)) ||
      mount.exclusion.excludes (front ++ name) then kept
  else keep kept ⟨name, path, unicode⟩

def list (swept : FilePath → Bool) (directory : FilePath) (query : FileQuery) : FileListing :=
  let kept := (tree.readDir directory).foldl (listEntry mount swept directory query.after) []
  { entries := (kept.take listingCap).filterMap (describe links tree mount)
    truncated := decide (listingCap < kept.length) }

/-- The walk over one entry of a directory; `descend` walks what is below it. -/
def walkEntry (descend : FilePath → Text → Text → Option (List (Visit β))) (hidden : Bool)
    (directory : FilePath) (above below : Text) (child : OsName × Metadata β) :
    Option (List (Visit β)) :=
  let name := child.1.text
  if (hidden = false ∧ name.head? = some '.') ∨ isPart name = true then some []
  else
    let above := joinName above name
    let below := joinName below name
    let path := directory ++ [child.1]
    let metadata := child.2
    if mount.exclusion.excludes above then some [⟨below, path, .excluded⟩]
    else if metadata.isDirectory then
      (descend path above below).map (⟨below, path, .directory metadata⟩ :: ·)
    else if metadata.isFile then some [⟨below, path, .file path metadata⟩]
    else if metadata.isSymlink then
      match admitPath links tree mount path with
      | none => some []
      | some target =>
        match tree.lookup target with
        | none => some []
        | some metadata => some (if metadata.isFile then [⟨below, path, .linked target metadata⟩] else [])
    else some []

/-- The walk below a directory, with as many levels as `fuel`. -/
def walkBelow (hidden : Bool) : Nat → FilePath → Text → Text → Option (List (Visit β))
  | 0, _, _, _ => none
  | fuel + 1, directory, above, below =>
    Closure.gather (walkEntry links tree mount (walkBelow hidden fuel) hidden directory above below)
      (tree.readDir directory)

/-- The entries a walk visits, in order. -/
def walk (directory : FilePath) (above : Text) (hidden : Bool) : List (Visit β) :=
  (walkBelow links tree mount hidden (tree.depth + 1) directory above []).getD []

/-- The check of one entry a download names. -/
def checkEntry (canonical : FilePath) (above : Text) (entry : Text) : Except Status OsName := do
  match ← splitPath entry with
  | [name] =>
    if mount.exclusion.excludes (joinName above name.text) ∨
        (admitPath links tree mount (canonical ++ [name])).isNone then .error .notFound
    else .ok name
  | _ => .error .badRequest

/-- The download of the directory at `canonical`, or of the entries `query` names in it. -/
def archive (canonical : FilePath) (query : FileQuery) : Except Status Archive := do
  let above := (relative mount canonical).getD []
  let sorted := (query.entries.insertionSort fun a b => a ≤ b).dedup
  let entries ← sorted.mapM (checkEntry links tree mount canonical above)
  let stem := canonical.getLast?.elim "files".toList OsName.text
  return ⟨canonical, above, entries, query.hidden, stem ++ ".zip".toList⟩

/-- Find what `names`, each one validated, name under the root. -/
def find (swept : FilePath → Bool) (names : List OsName) (query : FileQuery) : Except Status Found :=
  if mount.exclusion.excludes (joined names) then .error .notFound
  else
    match admitPath links tree mount (mount.canonical ++ names) with
    | none => .error .notFound
    | some canonical =>
      match tree.lookup canonical with
      | none => .error .notFound
      | some metadata =>
        let name := names.getLast?.elim [] OsName.text
        if query.stat then
          .ok (.stat ⟨FileEntry.new name (kindOf metadata) (some metadata),
            if mount.revealPaths then some ('/' :: joined canonical) else none⟩)
        -- Only a directory's download takes entries.
        else if query.entries ≠ [] ∧ ¬ (query.download ∧ metadata.isDirectory) then .error .badRequest
        else if metadata.isDirectory then
          if query.download then (archive links tree mount canonical query).map .archive
          else .ok (.listing (list links tree mount swept canonical query))
        else if metadata.isFile then .ok (.file canonical name)
        else .error .notFound

/-- The bytes of the file at a path, which no link is opened for. -/
def bytesAt (path : FilePath) : Option (List β) :=
  match tree.lookup path with
  | some ⟨_, .file content⟩ => some content
  | _ => none

/-- What a visit adds to an archive, `none` where its file cannot be opened. -/
def addMember (name : Text) (visit : Visit β) : Option (List (Member β)) :=
  match visit.walked with
  | .file path _ => (bytesAt tree path).map fun bytes => [⟨name, visit.path, some (path, bytes)⟩]
  | .linked path _ => (bytesAt tree path).map fun bytes => [⟨name, visit.path, some (path, bytes)⟩]
  | .directory _ => some [⟨name, visit.path, none⟩]
  | .excluded => some []

/-- The visits added one by one, up to the first that fails. -/
def addAll : List (Option (Text × Visit β)) → List (Member β) × Bool
  | [] => ([], true)
  | none :: _ => ([], false)
  | some (name, visit) :: rest =>
    match addMember tree name visit with
    | none => ([], false)
    | some here => (here ++ (addAll rest).1, (addAll rest).2)

/-- The visits for one entry that a download names. -/
def entryVisits (archive : Archive) (entry : OsName) : List (Option (Text × Visit β)) :=
  let own := archive.directory ++ [entry]
  match admitPath links tree mount own with
  | none => [none]
  | some path =>
    match tree.lookup path with
    | none => [none]
    | some metadata =>
      if metadata.isFile then [some (entry.text, ⟨entry.text, own, .file path metadata⟩)]
      else if metadata.isDirectory then
        some (entry.text, ⟨entry.text, own, .directory metadata⟩) ::
          (walk links tree mount path ((relative mount path).getD []) archive.hidden).map fun visit =>
            some (entry.text ++ '/' :: visit.below, visit)
      else []

def writeArchive (archive : Archive) : List (Member β) × Bool :=
  let all := if archive.entries = [] then
      (walk links tree mount archive.directory archive.relative archive.hidden).map fun visit =>
        some (visit.below, visit)
    else []
  addAll tree (all ++ archive.entries.flatMap (entryVisits links tree mount archive))

/-- A `GET`: the mount opened, the entry found and what is found answered. -/
def read (glob : Text → Option (Text → Bool)) (swept : FilePath → Bool) (resolved : ResolvedMount)
    (path : Text) (query : FileQuery) : Except Status (Answer β) := do
  let names ← splitPath path
  if resolved.access = .none then .error .notFound
  else
    let mount ← OpenMount.open_ links tree glob resolved
    match ← find links tree mount swept names query with
    | .listing listing => return .listing listing
    | .stat stat => return .stat stat
    | .file path name =>
      match bytesAt tree path with
      | some bytes => return .file path name bytes
      | none => .error .notFound
    | .archive archive =>
      let written := writeArchive links tree mount archive
      return .archive archive.name written.1 written.2

end Read

/-! ## 5. What lies inside -/

theorem OsName.text_ne_nil (name : OsName) : name.text ≠ [] := by
  have h := name.normal
  unfold Normal at h
  exact (of_decide_eq_true h).1

theorem joined_cons (name : OsName) {path : FilePath} (h : path ≠ []) :
    joined (name :: path) = name.text ++ '/' :: joined path := by
  unfold joined
  rw [List.map_cons, List.intercalate_cons_of_ne_nil (by simpa using h)]
  simp

theorem joined_eq_nil {path : FilePath} : joined path = [] ↔ path = [] := by
  cases path with
  | nil => exact ⟨fun _ => rfl, fun _ => rfl⟩
  | cons name path =>
    refine ⟨fun h => absurd h ?_, fun h => by cases h⟩
    by_cases hpath : path = []
    · rw [hpath]
      exact fun h => name.text_ne_nil (by simpa [joined] using h)
    · rw [joined_cons name hpath]
      simp

/-- The walk's way to join names is the one of `relative`. -/
theorem joined_concat (path : FilePath) (name : OsName) :
    joined (path ++ [name]) = joinName (joined path) name.text := by
  induction path with
  | nil => simp [joined, joinName]
  | cons first path ih =>
    have hne : path ++ [name] ≠ [] := by simp
    rw [List.cons_append, joined_cons first hne, ih]
    by_cases hpath : path = []
    · subst hpath
      simp [joined, joinName, first.text_ne_nil]
    · have hjoined : joined path ≠ [] := fun h => hpath (joined_eq_nil.mp h)
      have hcons : first.text ++ '/' :: joined path ≠ [] := by simp
      rw [joined_cons first hpath, joinName, if_neg hjoined, joinName, if_neg hcons]
      simp

section Inside

variable (mount : OpenMount)

/-- **The path is below the root and no pattern excludes it.** -/
def Inside (path : FilePath) : Prop :=
  ∃ below, relative mount path = some below ∧ mount.exclusion.excludes below = false

variable {mount}

theorem relative_concat {directory : FilePath} {above : Text} (h : relative mount directory = some above)
    (name : OsName) : relative mount (directory ++ [name]) = some (joinName above name.text) := by
  unfold relative at h ⊢
  by_cases hroot : mount.canonical <+: directory
  · rw [if_pos hroot, Option.some.injEq] at h
    have hlength := hroot.length_le
    rw [if_pos (hroot.trans (List.prefix_append _ _)), List.drop_append_of_le_length hlength,
      joined_concat, h]
  · rw [if_neg hroot] at h
    cases h

theorem inside_concat {directory : FilePath} {above : Text} (h : relative mount directory = some above)
    {name : OsName} (hname : mount.exclusion.excludes (joinName above name.text) = false) :
    Inside mount (directory ++ [name]) :=
  ⟨_, relative_concat h name, hname⟩

variable {links : Nat} {tree : FileTree β}

theorem admit_eq_some {path canonical : FilePath} : admitPath links tree mount path = some canonical ↔
      canonicalize tree links path = some canonical ∧ Inside mount canonical := by
  unfold admitPath Inside
  simp only [Option.bind_eq_bind, Option.bind_eq_some_iff]
  constructor
  · intro h
    obtain ⟨found, hfound, below, hbelow, hexcluded⟩ := h
    by_cases hexcludes : mount.exclusion.excludes below = true
    · rw [if_pos hexcludes] at hexcluded
      cases hexcluded
    · rw [if_neg hexcludes, Option.some.injEq] at hexcluded
      subst hexcluded
      exact ⟨hfound, below, hbelow, by simpa using hexcludes⟩
  · intro h
    obtain ⟨hfound, below, hbelow, hexcludes⟩ := h
    exact ⟨canonical, hfound, below, hbelow, by rw [hexcludes]; rfl⟩

/-- **The file's canonical path is inside.** -/
def ServedInside (links : Nat) (tree : FileTree β) (mount : OpenMount) (path : FilePath) : Prop :=
  ∃ canonical, canonicalize tree links path = some canonical ∧ Inside mount canonical

theorem ServedInside.of_solid {path : FilePath} (hsolid : Solid tree path) (h : Inside mount path) :
    ServedInside links tree mount path :=
  ⟨path, canonicalize_self links hsolid, h⟩

theorem ServedInside.of_admit {path canonical : FilePath}
    (h : admitPath links tree mount path = some canonical) : ServedInside links tree mount canonical := by
  obtain ⟨hfound, hinside⟩ := admit_eq_some.mp h
  exact ServedInside.of_solid (canonicalize_solid hfound) hinside

end Inside

/-! ## 6. The walk -/

section Walk

variable {links : Nat} {tree : FileTree β} {mount : OpenMount}

/-- The file whose bytes a visit stands for. -/
def Visit.source (visit : Visit β) : Option FilePath :=
  match visit.walked with
  | .file path _ => some path
  | .linked path _ => some path
  | .directory _ => none
  | .excluded => none

variable (links tree mount) in
/-- A visit is at an excluded entry, or at one inside, and its bytes are inside too. -/
def Visit.Sound (visit : Visit β) : Prop :=
  visit.walked = .excluded ∨
    (Inside mount visit.path ∧ ∀ path, visit.source = some path → ServedInside links tree mount path)

variable {hidden : Bool} {directory : FilePath} {above below : Text}

/-- **What the walk does at one entry**: it skips it, visits it or visits it and goes on below. -/
theorem walkEntry_cases {descend : FilePath → Text → Text → Option (List (Visit β))}
    {child : OsName × Metadata β} {here : List (Visit β)}
    (h : walkEntry links tree mount descend hidden directory above below child = some here) {visit : Visit β}
    (hvisit : visit ∈ here) : visit.walked = .excluded ∨
      (mount.exclusion.excludes (joinName above child.1.text) = false ∧
        ((visit = ⟨joinName below child.1.text, directory ++ [child.1], .directory child.2⟩ ∧
            child.2.isDirectory = true) ∨ (visit = ⟨joinName below child.1.text, directory ++ [child.1],
              .file (directory ++ [child.1]) child.2⟩ ∧ child.2.isFile = true) ∨
          (∃ target metadata, visit = ⟨joinName below child.1.text, directory ++ [child.1],
              .linked target metadata⟩ ∧ admitPath links tree mount (directory ++ [child.1]) = some target) ∨
          (child.2.isDirectory = true ∧ ∃ later, visit ∈ later ∧
            descend (directory ++ [child.1]) (joinName above child.1.text) (joinName below child.1.text) =
              some later))) := by
  unfold walkEntry at h
  simp only at h
  split at h
  · rw [Option.some.injEq] at h
    rw [← h] at hvisit
    cases hvisit
  · split at h
    · rw [Option.some.injEq] at h
      rw [← h, List.mem_singleton] at hvisit
      exact .inl (by rw [hvisit])
    · rename_i hexcluded
      refine .inr ⟨by simpa using hexcluded, ?_⟩
      split at h
      · rename_i hdirectory
        obtain ⟨later, hlater, h⟩ := Option.map_eq_some_iff.mp h
        rw [← h] at hvisit
        rcases List.mem_cons.mp hvisit with hvisit | hvisit
        · exact .inl ⟨hvisit, hdirectory⟩
        · exact .inr (.inr (.inr ⟨hdirectory, later, hvisit, hlater⟩))
      · split at h
        · rename_i hfile
          rw [Option.some.injEq] at h
          rw [← h, List.mem_singleton] at hvisit
          exact .inr (.inl ⟨hvisit, hfile⟩)
        · split at h
          · split at h
            · cases h
              cases hvisit
            · rename_i target hadmit
              split at h
              · cases h
                cases hvisit
              · rename_i metadata hfound
                rw [Option.some.injEq] at h
                rw [← h] at hvisit
                split at hvisit
                · exact .inr (.inr (.inl ⟨target, metadata, List.mem_singleton.mp hvisit, hadmit⟩))
                · cases hvisit
          · cases h
            cases hvisit

/-- **Every visit of a walk is sound**, where the walk starts at a directory below the root. -/
theorem walkBelow_sound (fuel : Nat) : ∀ {directory : FilePath} {above below : Text}
    {visits : List (Visit β)}, relative mount directory = some above →
      walkBelow links tree mount hidden fuel directory above below = some visits →
        ∀ visit ∈ visits, visit.Sound links tree mount := by
  induction fuel with
  | zero =>
    intro directory above below visits _ h
    cases h
  | succ fuel ih =>
    intro directory above below visits habove h visit hvisit
    rw [walkBelow] at h
    obtain ⟨child, hchild, here, hhere, hvisit⟩ := ((Closure.gather_eq_some h).2 visit).mp hvisit
    have hfound := Tree.mem_readDir.mp hchild
    rcases walkEntry_cases hhere hvisit with hexcluded | ⟨hname, hcase⟩
    · exact .inl hexcluded
    · have hinside := inside_concat habove hname
      rcases hcase with ⟨hvisit, -⟩ | ⟨hvisit, hfile⟩ | ⟨target, metadata, hvisit, hadmit⟩ |
        ⟨-, later, hvisit, hlater⟩
      · rw [hvisit]
        exact .inr ⟨hinside, fun path hpath => by cases hpath⟩
      · rw [hvisit]
        refine .inr ⟨hinside, fun path hpath => ?_⟩
        have hsource : directory ++ [child.1] = path := Option.some.inj hpath
        rw [← hsource]
        exact ServedInside.of_solid ⟨_, hfound, Entry.isSymlink_of_file hfile⟩ hinside
      · rw [hvisit]
        refine .inr ⟨hinside, fun path hpath => ?_⟩
        have hsource : target = path := Option.some.inj hpath
        rw [← hsource]
        exact ServedInside.of_admit hadmit
      · exact ih (relative_concat habove child.1) hlater visit hvisit

theorem walkEntry_mono {descend other : FilePath → Text → Text → Option (List (Visit β))}
    (hdescend : ∀ directory above below here, descend directory above below = some here →
      other directory above below = some here) (child : OsName × Metadata β) (here : List (Visit β))
    (h : walkEntry links tree mount descend hidden directory above below child = some here) :
    walkEntry links tree mount other hidden directory above below child = some here := by
  unfold walkEntry at h ⊢
  simp only at h ⊢
  split
  · rename_i hskip
    rwa [if_pos hskip] at h
  · rename_i hskip
    rw [if_neg hskip] at h
    split
    · rename_i hexcluded
      rwa [if_pos hexcluded] at h
    · rename_i hexcluded
      rw [if_neg hexcluded] at h
      split
      · rename_i hdirectory
        rw [if_pos hdirectory] at h
        obtain ⟨later, hlater, h⟩ := Option.map_eq_some_iff.mp h
        rw [hdescend _ _ _ _ hlater, Option.map_some, h]
      · rename_i hdirectory
        rwa [if_neg hdirectory] at h

/-- Only the descent into a directory can go on without end. -/
theorem walkEntry_isSome {descend : FilePath → Text → Text → Option (List (Visit β))}
    {child : OsName × Metadata β}
    (h : ∀ above below, (descend (directory ++ [child.1]) above below).isSome = true) :
    (walkEntry links tree mount descend hidden directory above below child).isSome = true := by
  unfold walkEntry
  simp only
  split
  · rfl
  · split
    · rfl
    · split
      · rw [Option.isSome_map]
        exact h _ _
      · split
        · rfl
        · split
          · split
            · rfl
            · split <;> rfl
          · rfl

theorem walkBelow_succ (fuel : Nat) : ∀ {directory : FilePath} {above below : Text}
    {visits : List (Visit β)}, walkBelow links tree mount hidden fuel directory above below = some visits →
      walkBelow links tree mount hidden (fuel + 1) directory above below = some visits := by
  induction fuel with
  | zero =>
    intro directory above below visits h
    cases h
  | succ fuel ih =>
    intro directory above below visits h
    rw [walkBelow] at h ⊢
    exact Closure.gather_mono (walkEntry_mono fun _ _ _ _ => ih) h

theorem walkBelow_mono {fuel more : Nat} (hmore : fuel ≤ more) {visits : List (Visit β)}
    (h : walkBelow links tree mount hidden fuel directory above below = some visits) :
    walkBelow links tree mount hidden more directory above below = some visits := by
  induction more, hmore using Nat.le_induction with
  | base => exact h
  | succ more _ ih => exact walkBelow_succ more ih

theorem walkBelow_isSome (fuel : Nat) : ∀ {directory : FilePath} {above below : Text},
    tree.depth < directory.length + (fuel + 1) →
      (walkBelow links tree mount hidden (fuel + 1) directory above below).isSome = true := by
  induction fuel with
  | zero =>
    intro directory above below hfuel
    rw [walkBelow]
    refine Closure.gather_isSome fun child hchild => ?_
    -- Nothing is found this far down.
    have hlength := Tree.length_le_depth (Tree.mem_readDir.mp hchild)
    rw [List.length_append, List.length_singleton] at hlength
    omega
  | succ fuel ih =>
    intro directory above below hfuel
    rw [walkBelow]
    refine Closure.gather_isSome fun child hchild => walkEntry_isSome fun above below => ih ?_
    rw [List.length_append, List.length_singleton]
    omega

/-- **The walk ends**, and comes to the same however much further it might have gone. -/
theorem walkBelow_enough (hidden : Bool) (directory : FilePath) (above below : Text) :
    ∃ visits, ∀ fuel, tree.depth < fuel →
      walkBelow links tree mount hidden fuel directory above below = some visits := by
  have hsome : (walkBelow links tree mount hidden (tree.depth + 1) directory above below).isSome = true :=
    walkBelow_isSome tree.depth (by omega)
  obtain ⟨visits, hvisits⟩ := Option.isSome_iff_exists.mp hsome
  exact ⟨visits, fun fuel hfuel => walkBelow_mono hfuel hvisits⟩

theorem walk_eq (directory : FilePath) (above : Text) (hidden : Bool) :
    walkBelow links tree mount hidden (tree.depth + 1) directory above [] =
      some (walk links tree mount directory above hidden) := by
  have henough : ∃ visits, ∀ fuel, tree.depth < fuel →
      walkBelow links tree mount hidden fuel directory above [] = some visits :=
    walkBelow_enough hidden directory above []
  obtain ⟨visits, hvisits⟩ := henough
  unfold walk
  rw [hvisits _ (Nat.lt_succ_self _)]
  rfl

theorem walk_sound {above : Text} (habove : relative mount directory = some above) {visit : Visit β}
    (h : visit ∈ walk links tree mount directory above hidden) : visit.Sound links tree mount :=
  walkBelow_sound _ habove (walk_eq directory above hidden) visit h

end Walk

/-! ## 7. Reads -/

section Reads

variable {links : Nat} {tree : FileTree β} {mount : OpenMount}

theorem mem_keep {kept : List Candidate} {candidate other : Candidate} (h : other ∈ keep kept candidate) :
    other = candidate ∨ other ∈ kept := by
  unfold keep at h
  simp only at h
  split at h
  · exact (List.mem_orderedInsert _).mp (List.mem_of_mem_dropLast h)
  · exact (List.mem_orderedInsert _).mp h

variable (tree mount) in
def Candidate.Sound (directory : FilePath) (candidate : Candidate) : Prop :=
  ∃ name metadata, (name, metadata) ∈ tree.readDir directory ∧ name.text = candidate.name ∧
    Inside mount (directory ++ [name])

theorem front_append (above name : Text) :
    (if above = [] then [] else above ++ ['/']) ++ name = joinName above name := by
  unfold joinName
  split <;> simp

variable {swept : FilePath → Bool}

theorem listEntry_sound {directory : FilePath} {above : Text} (habove : relative mount directory = some above)
    {after : Option Text} {kept : List Candidate} {child : OsName × Metadata β}
    (hchild : child ∈ tree.readDir directory) (hkept : ∀ candidate ∈ kept, candidate.Sound tree mount directory) :
    ∀ candidate ∈ listEntry mount swept directory after kept child, candidate.Sound tree mount directory := by
  intro candidate hcandidate
  unfold listEntry at hcandidate
  simp only [habove, Option.getD_some, front_append] at hcandidate
  split at hcandidate
  · exact hkept candidate hcandidate
  · rename_i hskip
    simp only [Bool.or_eq_true, not_or, Bool.not_eq_true] at hskip
    rcases mem_keep hcandidate with hnew | hold
    · rw [hnew]
      exact ⟨child.1, child.2, hchild, rfl, inside_concat habove hskip.2⟩
    · exact hkept candidate hold

theorem foldl_listEntry_sound {directory : FilePath} {above : Text}
    (habove : relative mount directory = some above) {after : Option Text}
    (children : List (OsName × Metadata β)) (hchildren : ∀ child ∈ children, child ∈ tree.readDir directory) :
    ∀ {kept : List Candidate}, (∀ candidate ∈ kept, candidate.Sound tree mount directory) →
      ∀ candidate ∈ children.foldl (listEntry mount swept directory after) kept,
        candidate.Sound tree mount directory := by
  induction children with
  | nil => exact fun hkept => hkept
  | cons child children ih =>
    intro kept hkept
    rw [List.foldl_cons]
    exact ih (fun other hother => hchildren other (List.mem_cons_of_mem _ hother))
      (listEntry_sound habove (hchildren child List.mem_cons_self) hkept)

theorem describe_name {candidate : Candidate} {entry : FileEntry}
    (h : describe links tree mount candidate = some entry) : entry.name = candidate.name := by
  unfold describe at h
  split at h
  · rw [Option.some.injEq] at h
    rw [← h]
    rfl
  · split at h
    · rw [Option.some.injEq] at h
      rw [← h]
      rfl
    · split at h
      · rw [Option.some.injEq] at h
        rw [← h]
        rfl
      · split at h
        · rw [Option.some.injEq] at h
          rw [← h]
          rfl
        · split at h
          · rw [Option.some.injEq] at h
            rw [← h]
            rfl
          · split at h
            · cases h
            · obtain ⟨target, -, h⟩ := Option.map_eq_some_iff.mp h
              rw [← h]
              rfl

variable {query : FileQuery}

/-- **A listing names entries inside only.** -/
theorem list_sound {directory : FilePath} (hdirectory : Inside mount directory) {entry : FileEntry}
    (h : entry ∈ (list links tree mount swept directory query).entries) :
    ∃ name metadata, (name, metadata) ∈ tree.readDir directory ∧ name.text = entry.name ∧
      Inside mount (directory ++ [name]) := by
  obtain ⟨above, habove, -⟩ := hdirectory
  obtain ⟨candidate, hcandidate, hentry⟩ := List.mem_filterMap.mp h
  have hsound := foldl_listEntry_sound habove (tree.readDir directory) (fun _ hchild => hchild)
    (fun _ hnone => by cases hnone) candidate (List.mem_of_mem_take hcandidate)
  obtain ⟨name, metadata, hmem, hname, hinside⟩ := hsound
  exact ⟨name, metadata, hmem, hname.trans (describe_name hentry).symm, hinside⟩

variable (links tree mount) in
/-- A member comes from an entry inside, and its bytes from a file inside. -/
def Member.Sound (member : Member β) : Prop :=
  Inside mount member.path ∧ ∀ path bytes, member.bytes = some (path, bytes) →
    ServedInside links tree mount path ∧ bytesAt tree path = some bytes

theorem addMember_sound {name : Text} {visit : Visit β} (hvisit : visit.Sound links tree mount)
    {here : List (Member β)} (h : addMember tree name visit = some here) :
    ∀ member ∈ here, member.Sound links tree mount := by
  intro member hmember
  -- A file and a link's target are added alike.
  have hbytes : ∀ {path : FilePath}, visit.walked ≠ .excluded → visit.source = some path →
      (bytesAt tree path).map (fun bytes => [(⟨name, visit.path, some (path, bytes)⟩ : Member β)]) =
        some here → member.Sound links tree mount := by
    intro path hwalked hsource hmap
    obtain ⟨bytes, hbytes, hhere⟩ := Option.map_eq_some_iff.mp hmap
    rw [← hhere, List.mem_singleton] at hmember
    rcases hvisit with hexcluded | ⟨hinside, hserved⟩
    · exact absurd hexcluded hwalked
    · rw [hmember]
      refine ⟨hinside, fun other content hother => ?_⟩
      rw [Option.some.injEq, Prod.mk.injEq] at hother
      rw [← hother.1, ← hother.2]
      exact ⟨hserved path hsource, hbytes⟩
  unfold addMember at h
  split at h
  · rename_i path metadata hwalked
    exact hbytes (by rw [hwalked]; exact nofun) (by unfold Visit.source; rw [hwalked]) h
  · rename_i path metadata hwalked
    exact hbytes (by rw [hwalked]; exact nofun) (by unfold Visit.source; rw [hwalked]) h
  · rename_i metadata hwalked
    rw [Option.some.injEq] at h
    rw [← h, List.mem_singleton] at hmember
    rcases hvisit with hexcluded | ⟨hinside, -⟩
    · rw [hwalked] at hexcluded
      cases hexcluded
    · rw [hmember]
      exact ⟨hinside, fun _ _ hnone => by cases hnone⟩
  · rw [Option.some.injEq] at h
    rw [← h] at hmember
    cases hmember

theorem addAll_sound (visits : List (Option (Text × Visit β)))
    (hvisits : ∀ name visit, some (name, visit) ∈ visits → visit.Sound links tree mount) :
    ∀ member ∈ (addAll tree visits).1, member.Sound links tree mount := by
  induction visits with
  | nil => exact fun member hmember => by cases hmember
  | cons first visits ih =>
    intro member hmember
    have hlater := ih fun name visit h => hvisits name visit (List.mem_cons_of_mem _ h)
    rcases first with - | ⟨name, visit⟩
    · cases hmember
    · rw [addAll] at hmember
      split at hmember
      · cases hmember
      · rename_i here hhere
        rcases List.mem_append.mp hmember with hnow | hthen
        · exact addMember_sound (hvisits name visit List.mem_cons_self) hhere member hnow
        · exact hlater member hthen

theorem entryVisits_sound {archive : Archive} {entry : OsName}
    (hentry : Inside mount (archive.directory ++ [entry])) {name : Text} {visit : Visit β}
    (h : some (name, visit) ∈ entryVisits links tree mount archive entry) : visit.Sound links tree mount := by
  unfold entryVisits at h
  simp only at h
  split at h
  · simp at h
  · rename_i path hadmit
    split at h
    · simp at h
    · rename_i metadata hfound
      split at h
      · rw [List.mem_singleton, Option.some.injEq, Prod.mk.injEq] at h
        rw [h.2]
        refine .inr ⟨hentry, fun source hsource => ?_⟩
        have hpath : path = source := Option.some.inj hsource
        rw [← hpath]
        exact ServedInside.of_admit hadmit
      · split at h
        · rcases List.mem_cons.mp h with hfirst | hbelow
          · rw [Option.some.injEq, Prod.mk.injEq] at hfirst
            rw [hfirst.2]
            exact .inr ⟨hentry, fun _ hsource => by cases hsource⟩
          · obtain ⟨walked, hwalked, heq⟩ := List.mem_map.mp hbelow
            rw [Option.some.injEq, Prod.mk.injEq] at heq
            obtain ⟨-, below, hrelative, -⟩ := admit_eq_some.mp hadmit
            rw [hrelative, Option.getD_some] at hwalked
            rw [← heq.2]
            exact walk_sound hrelative hwalked
        · cases h

theorem checkEntry_inside {canonical : FilePath} {above : Text}
    (habove : relative mount canonical = some above) {entry : Text} {name : OsName}
    (h : checkEntry links tree mount canonical above entry = .ok name) : Inside mount (canonical ++ [name]) := by
  unfold checkEntry at h
  cases hsplit : splitPath entry with
  | error status =>
    rw [hsplit] at h
    cases h
  | ok names =>
    rw [hsplit] at h
    simp only [bind, Except.bind] at h
    split at h
    · split at h
      · cases h
      · rename_i hchecked
        rw [Except.ok.injEq] at h
        rw [← h]
        exact inside_concat habove (by simpa using fun hexcluded => hchecked (.inl hexcluded))
    · cases h

/-- What an archive says of itself: it starts below the root, and its entries are inside. -/
theorem archive_spec {canonical : FilePath} (hcanonical : Inside mount canonical) {result : Archive}
    (h : archive links tree mount canonical query = .ok result) :
    relative mount result.directory = some result.relative ∧
      ∀ entry ∈ result.entries, Inside mount (result.directory ++ [entry]) := by
  obtain ⟨above, habove, -⟩ := hcanonical
  unfold archive at h
  simp only [habove, Option.getD_some, bind, Except.bind] at h
  split at h
  · cases h
  · rename_i entries hentries
    cases h
    exact ⟨habove, forall_of_mapM_ok (fun _ _ hchecked => checkEntry_inside habove hchecked) _ hentries⟩

/-- **An archive names entries inside only, and so are the files it holds.** -/
theorem writeArchive_sound {canonical : FilePath} (hcanonical : Inside mount canonical) {result : Archive}
    (h : archive links tree mount canonical query = .ok result) :
    ∀ member ∈ (writeArchive links tree mount result).1, member.Sound links tree mount := by
  obtain ⟨habove, hentries⟩ := archive_spec hcanonical h
  refine addAll_sound _ fun name visit hvisit => ?_
  rcases List.mem_append.mp hvisit with hall | hnamed
  · split at hall
    · obtain ⟨walked, hwalked, heq⟩ := List.mem_map.mp hall
      rw [Option.some.injEq, Prod.mk.injEq] at heq
      rw [← heq.2]
      exact walk_sound habove hwalked
    · cases hall
  · obtain ⟨entry, hentry, hmem⟩ := List.mem_flatMap.mp hnamed
    exact entryVisits_sound (hentries entry hentry) hmem

variable (links tree mount) in
/-- **Nothing of an answer is outside.** Its listing names entries of the directory that was asked for;
    what a stat describes is the entry that was asked for. -/
def Answer.Sound (names : List OsName) : Answer β → Prop
  | .listing shown =>
    ∃ directory, canonicalize tree links (mount.canonical ++ names) = some directory ∧
      Inside mount directory ∧
      ∀ entry ∈ shown.entries, ∃ name metadata, (name, metadata) ∈ tree.readDir directory ∧
        name.text = entry.name ∧ Inside mount (directory ++ [name])
  | .stat described =>
    ∃ canonical metadata, canonicalize tree links (mount.canonical ++ names) = some canonical ∧
      Inside mount canonical ∧ tree.lookup canonical = some metadata ∧
      described.entry = FileEntry.new described.entry.name (kindOf metadata) (some metadata)
  | .file path _ bytes => ServedInside links tree mount path ∧ bytesAt tree path = some bytes
  | .archive _ members _ => ∀ member ∈ members, member.Sound links tree mount

variable (links tree mount) in
/-- What was found, as `Answer.Sound` says it of the answer. -/
def Found.Sound (names : List OsName) : Found → Prop
  | .listing shown => (Answer.listing shown : Answer β).Sound links tree mount names
  | .stat described => (Answer.stat described : Answer β).Sound links tree mount names
  | .file path _ => ServedInside links tree mount path
  | .archive result => ∀ member ∈ (writeArchive links tree mount result).1, member.Sound links tree mount

theorem find_sound {names : List OsName} {found : Found}
    (h : find links tree mount swept names query = .ok found) : found.Sound links tree mount names := by
  unfold find at h
  split at h
  · cases h
  · split at h
    · cases h
    · rename_i canonical hadmit
      obtain ⟨hcanonical, hinside⟩ := admit_eq_some.mp hadmit
      split at h
      · cases h
      · rename_i metadata hfound
        simp only at h
        split at h
        · cases h
          exact ⟨canonical, metadata, hcanonical, hinside, hfound, rfl⟩
        · split at h
          · cases h
          · split at h
            · split at h
              · cases harchive : archive links tree mount canonical query with
                | error status =>
                  rw [harchive] at h
                  cases h
                | ok result =>
                  rw [harchive] at h
                  cases h
                  exact writeArchive_sound hinside harchive
              · cases h
                exact ⟨canonical, hcanonical, hinside, fun entry hentry => list_sound hinside hentry⟩
            · split at h
              · cases h
                exact ServedInside.of_admit hadmit
              · cases h

/-- **A read serves, describes, lists and packs nothing that is excluded or outside the root**, whatever
    the tree, its links and the patterns are; and the walk ends, whatever cycles the links form. -/
theorem reads_stay_inside (links : Nat) (tree : FileTree β) (glob : Text → Option (Text → Bool))
    (swept : FilePath → Bool) (resolved : ResolvedMount) :
    (∀ (path : Text) (query : FileQuery) (answer : Answer β),
      read links tree glob swept resolved path query = .ok answer →
      ∃ mount names, OpenMount.open_ links tree glob resolved = .ok mount ∧ splitPath path = .ok names ∧
        answer.Sound links tree mount names) ∧
    ∀ (mount : OpenMount) (directory : FilePath) (above below : Text) (hidden : Bool),
      ∃ visits, ∀ fuel, tree.depth < fuel →
        walkBelow links tree mount hidden fuel directory above below = some visits := by
  refine ⟨fun path query answer h => ?_, fun mount directory above below hidden =>
    walkBelow_enough hidden directory above below⟩
  unfold read at h
  cases hnames : splitPath path with
  | error status =>
    rw [hnames] at h
    cases h
  | ok names =>
    rw [hnames] at h
    simp only [bind, Except.bind] at h
    split at h
    · cases h
    · cases hopen : OpenMount.open_ links tree glob resolved with
      | error status =>
        rw [hopen] at h
        cases h
      | ok mount =>
        rw [hopen] at h
        simp only at h
        cases hfind : find links tree mount swept names query with
        | error status =>
          rw [hfind] at h
          cases h
        | ok found =>
          rw [hfind] at h
          have hsound := find_sound hfind
          refine ⟨mount, names, rfl, rfl, ?_⟩
          cases found with
          | listing listing =>
            cases h
            exact hsound
          | stat stat =>
            cases h
            exact hsound
          | file path name =>
            simp only at h
            split at h
            · rename_i bytes hbytes
              cases h
              exact ⟨hsound, hbytes⟩
            · cases h
          | archive result =>
            cases h
            exact hsound

end Reads

/-! ## 8. A download -/

namespace Sample

def root : OsName := ⟨['m'], none, by decide⟩

def plain : OsName := ⟨['a'], none, by decide⟩

def link : OsName := ⟨['i'], none, by decide⟩

def loop : OsName := ⟨['l'], none, by decide⟩

def raw : OsName := ⟨['r'], none, by decide⟩

/-- A file, a link to it, a link to itself and a directory to be hidden, under one root. -/
def tree : FileTree Nat where
  entries := [([], ⟨0, .directory⟩), ([root], ⟨1, .directory⟩), ([root, plain], ⟨2, .file [7]⟩),
    ([root, link], ⟨3, .symlink false [.down plain]⟩), ([root, loop], ⟨4, .symlink false [.down loop]⟩),
    ([root, raw], ⟨5, .directory⟩), ([root, raw, plain], ⟨6, .file [8]⟩)]
  nodup := by decide
  root := by decide
  closed := by decide

/-- A pattern without a special character matches itself only. -/
def literal (pattern : Text) : Option (Text → Bool) := some fun text => decide (text = pattern)

def resolved : ResolvedMount := ⟨[.down root], .view, [['r']], none, false⟩

def query : FileQuery where
  after := none
  stat := false
  download := true
  directory := false
  recursive := false
  overwrite := false
  hidden := true
  entries := []

end Sample

/-- The download of the root holds the file and the link's target, and nothing of the hidden directory. -/
theorem sample_download_inside :
    ∃ mount names, OpenMount.open_ 3 Sample.tree Sample.literal Sample.resolved = .ok mount ∧
      splitPath [] = .ok names ∧
      (Answer.archive ['m', '.', 'z', 'i', 'p']
        [⟨['a'], [Sample.root, Sample.plain], some ([Sample.root, Sample.plain], [7])⟩,
          ⟨['i'], [Sample.root, Sample.link], some ([Sample.root, Sample.plain], [7])⟩]
        true).Sound 3 Sample.tree mount names :=
  (reads_stay_inside 3 Sample.tree Sample.literal (fun _ => false) Sample.resolved).1 [] Sample.query _ rfl

end Ceres.Server.Files
