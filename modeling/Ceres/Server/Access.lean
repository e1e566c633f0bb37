/-
  File:      Ceres/Server/Access.lean
  Subject:   ACCESS RESOLUTION (`ceres/access.py`).

  A user's grants, their own and those of their groups, are merged by target first: each target keeps the
  highest. A component's level is then the highest of its default and of the kept grants that reach it.

  * `Grant.higher`, `AccessGrants.add`, `fetchAccessGrants` -- the merge;
  * `take`, `resolveAccessDetailFrom`, `resolveAccessFrom` -- the scan over the kept grants;
  * `height` -- levels as numbers, where having none is the least; each step of the merge and of the scan
    takes a maximum of heights;
  * **`access_is_highest`** -- so the level is the highest of everything granted, whatever the order of
    the grants, and another grant never lowers it.
-/
import Ceres.Server.Workspaces

namespace Ceres.Server.Access

open Ceres.Library
open Ceres.Server.Workspaces

set_option linter.unusedSectionVars false

/-! ## 1. Grants -/

/-- Which input decided a component's effective access level. -/
inductive AccessSource where
  | admin
  | default
  | component
  | tag
  | all
  deriving DecidableEq, Repr

/-- Whether a grant was held by the user directly or inherited from a group. -/
inductive GrantOrigin where
  | user
  | group
  deriving DecidableEq, Repr

inductive PermissionTargetType where
  | component
  | tag
  | all
  deriving DecidableEq, Repr

variable {ι : Type}

/-- A merged grant, with where it came from. -/
structure Grant (ι : Type) where
  level : ComponentAccessLevel
  origin : GrantOrigin
  groupId : Option ι := none

/-- A stored permission of a user or of one of their groups. -/
structure Permission (ι : Type) where
  targetType : PermissionTargetType
  target : Text
  grant : Grant ι

/-- A user's grants, the highest for each target. -/
structure AccessGrants (ι : Type) where
  admin : Bool := false
  component : Dict Text (Grant ι) := []
  tag : Dict Text (Grant ι) := []
  everything : Option (Grant ι) := none

/-- Whichever grants more access; on a tie the user's own is kept over a group's. -/
def Grant.higher (current : Option (Grant ι)) (candidate : Grant ι) : Grant ι :=
  match current with
  | none => candidate
  | some current =>
    if current.level.rank < candidate.level.rank then candidate
    else if candidate.level.rank = current.level.rank ∧ current.origin = .group ∧
        candidate.origin = .user then candidate
    else current

/-- `AccessGrants._add`. -/
def AccessGrants.add (grants : AccessGrants ι) (permission : Permission ι) : AccessGrants ι :=
  match permission.targetType with
  | .all => { grants with everything := some (Grant.higher grants.everything permission.grant) }
  | .component =>
    { grants with
      component := grants.component.set permission.target
        (Grant.higher (grants.component.get permission.target) permission.grant) }
  | .tag =>
    { grants with
      tag := grants.tag.set permission.target
        (Grant.higher (grants.tag.get permission.target) permission.grant) }

/-- Merge every grant that applies to a user. An admin's are not looked at. -/
def fetchAccessGrants (admin : Bool) (permissions : List (Permission ι)) : AccessGrants ι :=
  if admin then { admin := true } else permissions.foldl AccessGrants.add {}

/-! ## 2. Resolution -/

/-- A component's effective access level with what conferred it. -/
structure ResolvedAccess (ι : Type) where
  level : ComponentAccessLevel
  source : AccessSource
  origin : Option GrantOrigin := none
  groupId : Option ι := none

/-- The variables of the scan. -/
structure Scan (ι : Type) where
  level : Option ComponentAccessLevel
  source : AccessSource := .default
  winner : Option (Grant ι) := none

/-- Consider one grant; on a tie it replaces what was found before. -/
def take (source : AccessSource) (scan : Scan ι) (grant : Option (Grant ι)) : Scan ι :=
  match grant with
  | none => scan
  | some grant =>
    if scan.level.all fun level => decide (level.rank ≤ grant.level.rank) then
      { level := some grant.level, source, winner := some grant }
    else scan

/-- The scan over the kept grants: all-target, then tags, then addresses. -/
def scanned (grants : AccessGrants ι) (addressChain : List Text) (resolvedAccess : ComponentAccessLevel)
    (inheritedTags : List Text) : Scan ι :=
  let start : Scan ι := { level := if resolvedAccess ≠ .deny then some resolvedAccess else none }
  let everything := take .all start grants.everything
  let tagged := inheritedTags.foldl (fun scan tag => take .tag scan (grants.tag.get tag)) everything
  addressChain.foldl (fun scan address => take .component scan (grants.component.get address)) tagged

/-- Resolve one component's effective access and report which input conferred it. -/
def resolveAccessDetailFrom (grants : AccessGrants ι) (addressChain : List Text)
    (resolvedAccess : ComponentAccessLevel) (inheritedTags : List Text) : Option (ResolvedAccess ι) :=
  if grants.admin then some { level := .manage, source := .admin }
  else
    let scan := scanned grants addressChain resolvedAccess inheritedTags
    scan.level.map fun level =>
      match scan.winner with
      | none => { level, source := scan.source }
      | some winner =>
        { level, source := scan.source, origin := some winner.origin, groupId := winner.groupId }

/-- The effective level for one component, `none` for no access. -/
def resolveAccessFrom (grants : AccessGrants ι) (addressChain : List Text)
    (resolvedAccess : ComponentAccessLevel) (inheritedTags : List Text) :
    Option ComponentAccessLevel :=
  (resolveAccessDetailFrom grants addressChain resolvedAccess inheritedTags).map (·.level)

/-! ## 3. Heights -/

/-- A level as a number, where having none is the least. -/
def height : Option ComponentAccessLevel → Nat
  | none => 0
  | some level => level.rank + 1

theorem height_injective : Function.Injective height := by
  intro a b h
  cases a with
  | none => cases b with
    | none => rfl
    | some b => simp [height] at h
  | some a => cases b with
    | none => simp [height] at h
    | some b => cases a <;> cases b <;> simp_all [height, ComponentAccessLevel.rank]

/-- The height of a grant that may not be there. -/
def grantHeight (grant : Option (Grant ι)) : Nat := height (grant.map (·.level))

theorem height_higher (current : Option (Grant ι)) (candidate : Grant ι) :
    grantHeight (some (Grant.higher current candidate)) =
      max (grantHeight current) (grantHeight (some candidate)) := by
  unfold Grant.higher
  cases current with
  | none => simp [grantHeight, height]
  | some current =>
    simp only [grantHeight, Option.map_some, height]
    split
    · omega
    · split <;> omega

theorem height_take (source : AccessSource) (scan : Scan ι) (grant : Option (Grant ι)) :
    height (take source scan grant).level = max (height scan.level) (grantHeight grant) := by
  unfold take
  cases grant with
  | none => simp [grantHeight, height]
  | some grant =>
    simp only [grantHeight, Option.map_some]
    cases hlevel : scan.level with
    | none => simp [height]
    | some level =>
      by_cases hle : level.rank ≤ grant.level.rank
      · simp only [Option.all_some, hle, decide_true, if_true, height]
        omega
      · simp only [Option.all_some, hle, decide_false, Bool.false_eq_true, if_false, hlevel, height]
        omega

theorem height_foldl_take {source : AccessSource} {kept : Text → Option (Grant ι)} :
    ∀ (targets : List Text) (scan : Scan ι) (n : Nat),
      height (targets.foldl (fun scan target => take source scan (kept target)) scan).level ≤ n ↔
        height scan.level ≤ n ∧ ∀ target ∈ targets, grantHeight (kept target) ≤ n
  | [], scan, n => by simp
  | target :: targets, scan, n => by
      rw [List.foldl_cons, height_foldl_take targets, height_take, List.forall_mem_cons, max_le_iff,
        and_assoc]

/-- **The level is bounded by what bounds the default and the kept grants.** -/
theorem height_scanned (grants : AccessGrants ι) (addressChain : List Text)
    (resolvedAccess : ComponentAccessLevel) (inheritedTags : List Text) (n : Nat) :
    height (scanned grants addressChain resolvedAccess inheritedTags).level ≤ n ↔
      (resolvedAccess ≠ .deny → resolvedAccess.rank < n) ∧ grantHeight grants.everything ≤ n ∧
        (∀ tag ∈ inheritedTags, grantHeight (grants.tag.get tag) ≤ n) ∧
        ∀ address ∈ addressChain, grantHeight (grants.component.get address) ≤ n := by
  have hdefault : height (if resolvedAccess ≠ .deny then some resolvedAccess else none) ≤ n ↔
      (resolvedAccess ≠ .deny → resolvedAccess.rank < n) := by
    by_cases h : resolvedAccess = .deny
    · simp [h, height]
    · simp [h, height]
  rw [scanned, height_foldl_take, height_foldl_take, height_take, max_le_iff, hdefault, and_assoc,
    and_assoc]

/-! ## 4. The merge -/

/-- What is kept for a target: its type, and the text that names it where there is one. -/
def AccessGrants.kept (grants : AccessGrants ι) (type : PermissionTargetType) (target : Text) :
    Option (Grant ι) :=
  match type with
  | .all => grants.everything
  | .component => grants.component.get target
  | .tag => grants.tag.get target

/-- The permission is for the target; an all-target grant has no text to compare. -/
def Permission.for (permission : Permission ι) (type : PermissionTargetType) (target : Text) : Prop :=
  permission.targetType = type ∧ (type = .all ∨ permission.target = target)

/-- **One grant raises what is kept for its own target**, and nothing else. -/
theorem height_add (grants : AccessGrants ι) (permission : Permission ι) (type : PermissionTargetType)
    (target : Text) (n : Nat) : grantHeight ((grants.add permission).kept type target) ≤ n ↔
      grantHeight (grants.kept type target) ≤ n ∧
        (permission.for type target → grantHeight (some permission.grant) ≤ n) := by
  obtain ⟨held, name, grant⟩ := permission
  cases held <;> cases type <;>
    simp only [AccessGrants.add, AccessGrants.kept, Permission.for, reduceCtorEq, false_and,
      false_implies, and_true, true_and, true_or, false_or, true_implies, height_higher, max_le_iff,
      Dict.get_set]
  all_goals
    by_cases h : name = target
    · simp [h, height_higher]
    · simp [h]

theorem height_foldl_add {type : PermissionTargetType} {target : Text} {n : Nat} :
    ∀ (permissions : List (Permission ι)) (grants : AccessGrants ι),
      grantHeight ((permissions.foldl AccessGrants.add grants).kept type target) ≤ n ↔
        grantHeight (grants.kept type target) ≤ n ∧ ∀ permission ∈ permissions, permission.for type target →
            grantHeight (some permission.grant) ≤ n
  | [], grants => by simp
  | permission :: permissions, grants => by
      rw [List.foldl_cons, height_foldl_add permissions, height_add, List.forall_mem_cons, and_assoc]

/-! ## 5. The highest of everything granted -/

/-- The permission's target is `all`, an address of the chain or a tag of the set. -/
def Permission.reaches (permission : Permission ι) (addressChain inheritedTags : List Text) : Bool :=
  match permission.targetType with
  | .all => true
  | .component => addressChain.contains permission.target
  | .tag => inheritedTags.contains permission.target

/-- The default, unless it denies, and the levels of all grants that reach the component. -/
def candidates (permissions : List (Permission ι)) (addressChain : List Text)
    (resolvedAccess : ComponentAccessLevel) (inheritedTags : List Text) : List ComponentAccessLevel :=
  (if resolvedAccess ≠ .deny then [resolvedAccess] else []) ++
    (permissions.filter (·.reaches addressChain inheritedTags)).map (·.grant.level)

/-- The level of a user who is no admin. -/
def accessLevel (permissions : List (Permission ι)) (addressChain : List Text)
    (resolvedAccess : ComponentAccessLevel) (inheritedTags : List Text) : Option ComponentAccessLevel :=
  resolveAccessFrom (fetchAccessGrants false permissions) addressChain resolvedAccess inheritedTags

/-- The scan over the grants as they are stored, without the merge by target. -/
def unmergedLevel (permissions : List (Permission ι)) (addressChain : List Text)
    (resolvedAccess : ComponentAccessLevel) (inheritedTags : List Text) : Option ComponentAccessLevel :=
  ((permissions.filter (·.reaches addressChain inheritedTags)).foldl
    (fun scan permission => take .default scan (some permission.grant))
    { level := if resolvedAccess ≠ .deny then some resolvedAccess else none }).level

section Highest

variable (permissions : List (Permission ι)) (addressChain : List Text)
  (resolvedAccess : ComponentAccessLevel) (inheritedTags : List Text)

theorem admin_foldl_add : ∀ (permissions : List (Permission ι)) (grants : AccessGrants ι),
    (permissions.foldl AccessGrants.add grants).admin = grants.admin
  | [], _ => rfl
  | permission :: permissions, grants => by
      rw [List.foldl_cons, admin_foldl_add permissions]
      obtain ⟨held, name, grant⟩ := permission
      cases held <;> rfl

theorem mem_candidates {level : ComponentAccessLevel} :
    level ∈ candidates permissions addressChain resolvedAccess inheritedTags ↔
      (resolvedAccess ≠ .deny ∧ level = resolvedAccess) ∨
        ∃ permission ∈ permissions, permission.reaches addressChain inheritedTags = true ∧
          permission.grant.level = level := by
  rw [candidates, List.mem_append]
  by_cases h : resolvedAccess = .deny <;> simp [h, and_assoc]

theorem forall_reaches_iff {P : Grant ι → Prop} :
    (∀ permission ∈ permissions, permission.reaches addressChain inheritedTags = true → P permission.grant) ↔
      (∀ permission ∈ permissions, permission.for .all [] → P permission.grant) ∧
      (∀ tag ∈ inheritedTags, ∀ permission ∈ permissions, permission.for .tag tag → P permission.grant) ∧
      ∀ address ∈ addressChain, ∀ permission ∈ permissions, permission.for .component address →
        P permission.grant := by
  constructor
  · intro h
    refine ⟨fun p hp hfor => h p hp ?_, fun tag htag p hp hfor => h p hp ?_,
      fun address haddress p hp hfor => h p hp ?_⟩
    · rw [Permission.reaches, hfor.1]
    · rw [Permission.reaches, hfor.1, hfor.2.resolve_left (by decide)]
      exact List.contains_iff_mem.mpr htag
    · rw [Permission.reaches, hfor.1, hfor.2.resolve_left (by decide)]
      exact List.contains_iff_mem.mpr haddress
  · intro ⟨hall, htags, hchain⟩ p hp hreaches
    unfold Permission.reaches at hreaches
    cases htype : p.targetType with
    | all => exact hall p hp ⟨htype, .inl rfl⟩
    | component =>
      simp only [htype, List.contains_iff_mem] at hreaches
      exact hchain p.target hreaches p hp ⟨htype, .inr rfl⟩
    | tag =>
      simp only [htype, List.contains_iff_mem] at hreaches
      exact htags p.target hreaches p hp ⟨htype, .inr rfl⟩

/-- **The level's bounds are the candidates' bounds.** -/
theorem height_accessLevel (n : Nat) :
    height (accessLevel permissions addressChain resolvedAccess inheritedTags) ≤ n ↔
      ∀ level ∈ candidates permissions addressChain resolvedAccess inheritedTags, level.rank < n := by
  have hadmin : (fetchAccessGrants false permissions).admin = false := admin_foldl_add permissions {}
  have hscan : accessLevel permissions addressChain resolvedAccess inheritedTags =
      (scanned (fetchAccessGrants false permissions) addressChain resolvedAccess inheritedTags).level := by
    rw [accessLevel, resolveAccessFrom, resolveAccessDetailFrom, hadmin]
    cases h : (scanned (fetchAccessGrants false permissions) addressChain resolvedAccess
      inheritedTags).level with
    | none => simp [h]
    | some level =>
      cases hw : (scanned (fetchAccessGrants false permissions) addressChain resolvedAccess
        inheritedTags).winner <;> simp [h, hw]
  have hkept : ∀ type target, grantHeight ((fetchAccessGrants false permissions).kept type target) ≤ n ↔
      ∀ permission ∈ permissions, permission.for type target →
        grantHeight (some permission.grant) ≤ n := by
    intro type target
    rw [fetchAccessGrants, if_neg (by decide), height_foldl_add]
    cases type <;> simp [AccessGrants.kept, grantHeight, height]
  rw [hscan, height_scanned]
  have hreach := @forall_reaches_iff _ permissions addressChain inheritedTags
    (fun grant => grantHeight (some grant) ≤ n)
  simp only [← hkept] at hreach
  simp only [mem_candidates]
  rw [show grantHeight (fetchAccessGrants false permissions).everything =
    grantHeight ((fetchAccessGrants false permissions).kept .all []) from rfl]
  constructor
  · intro ⟨hdefault, hrest⟩ level hlevel
    rcases hlevel with ⟨hdeny, rfl⟩ | ⟨permission, hmem, hreaches, rfl⟩
    · exact hdefault hdeny
    · exact hreach.mpr hrest permission hmem hreaches
  · intro h
    exact ⟨fun hdeny => h _ (.inl ⟨hdeny, rfl⟩),
      hreach.mp fun permission hmem hreaches => h _ (.inr ⟨permission, hmem, hreaches, rfl⟩)⟩

theorem height_unmergedLevel (n : Nat) :
    height (unmergedLevel permissions addressChain resolvedAccess inheritedTags) ≤ n ↔
      ∀ level ∈ candidates permissions addressChain resolvedAccess inheritedTags, level.rank < n := by
  have hfold : ∀ (reaching : List (Permission ι)) (scan : Scan ι),
      height (reaching.foldl (fun scan permission => take .default scan (some permission.grant))
        scan).level ≤ n ↔
        height scan.level ≤ n ∧ ∀ permission ∈ reaching, permission.grant.level.rank < n := by
    intro reaching
    induction reaching with
    | nil => simp
    | cons permission reaching ih =>
      intro scan
      rw [List.foldl_cons, ih, height_take, max_le_iff, List.forall_mem_cons, and_assoc]
      rfl
  rw [unmergedLevel, hfold, candidates, List.forall_mem_append, List.forall_mem_map]
  by_cases h : resolvedAccess = .deny <;> simp [h, height]

/-- **Access is the highest of everything granted**: there is none exactly when nothing is granted; else
    it is one of the candidates and none is higher. So another grant never lowers it, the order of the
    grants does not matter, and the merge by target loses nothing. -/
theorem access_is_highest :
    (accessLevel permissions addressChain resolvedAccess inheritedTags = none ↔
      candidates permissions addressChain resolvedAccess inheritedTags = []) ∧
    (∀ level, accessLevel permissions addressChain resolvedAccess inheritedTags = some level →
      level ∈ candidates permissions addressChain resolvedAccess inheritedTags ∧
        ∀ other ∈ candidates permissions addressChain resolvedAccess inheritedTags,
          other.rank ≤ level.rank) ∧
    (∀ more : List (Permission ι), permissions ⊆ more →
      height (accessLevel permissions addressChain resolvedAccess inheritedTags) ≤
        height (accessLevel more addressChain resolvedAccess inheritedTags)) ∧
    (∀ other : List (Permission ι), other.Perm permissions →
      accessLevel other addressChain resolvedAccess inheritedTags =
        accessLevel permissions addressChain resolvedAccess inheritedTags) ∧
    accessLevel permissions addressChain resolvedAccess inheritedTags =
      unmergedLevel permissions addressChain resolvedAccess inheritedTags := by
  have hbound := height_accessLevel permissions addressChain resolvedAccess inheritedTags
  have hmono : ∀ fewer more : List (Permission ι), fewer ⊆ more →
      height (accessLevel fewer addressChain resolvedAccess inheritedTags) ≤
        height (accessLevel more addressChain resolvedAccess inheritedTags) := by
    intro fewer more hsubset
    rw [height_accessLevel]
    intro level hlevel
    refine (height_accessLevel more addressChain resolvedAccess inheritedTags _).mp (le_refl _) level ?_
    rw [mem_candidates] at hlevel ⊢
    exact hlevel.imp_right fun ⟨permission, hmem, hrest⟩ => ⟨permission, hsubset hmem, hrest⟩
  refine ⟨?_, ?_, hmono permissions, fun other hperm => height_injective ?_, height_injective ?_⟩
  · rw [List.eq_nil_iff_forall_not_mem]
    constructor
    · intro h level hlevel
      have := (hbound 0).mp (by rw [h]; exact le_refl 0) level hlevel
      omega
    · intro h
      refine height_injective (Nat.le_zero.mp ((hbound 0).mpr fun level hlevel => ?_))
      exact absurd hlevel (h level)
  · intro level h
    have hothers : ∀ other ∈ candidates permissions addressChain resolvedAccess inheritedTags,
        other.rank < level.rank + 1 := (hbound (level.rank + 1)).mp (by rw [h]; exact le_refl _)
    refine ⟨?_, fun other hother => Nat.lt_succ_iff.mp (hothers other hother)⟩
    by_contra hnone
    -- otherwise every candidate is lower, and so would the level be
    have hlower : height (some level) ≤ level.rank := by
      rw [← h, hbound]
      intro other hother
      have hle := hothers other hother
      have hne : other.rank ≠ level.rank := by
        intro heq
        have : some other = some level := height_injective (congrArg (· + 1) heq)
        exact hnone (Option.some.inj this ▸ hother)
      omega
    have : level.rank + 1 ≤ level.rank := hlower
    omega
  · exact le_antisymm (hmono _ _ hperm.subset) (hmono _ _ hperm.symm.subset)
  · exact le_antisymm
      ((hbound _).mpr ((height_unmergedLevel permissions addressChain resolvedAccess inheritedTags _).mp
        (le_refl _)))
      ((height_unmergedLevel permissions addressChain resolvedAccess inheritedTags _).mpr
        ((hbound _).mp (le_refl _)))

end Highest

end Ceres.Server.Access
