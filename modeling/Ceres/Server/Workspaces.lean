/-
  File:      Ceres/Server/Workspaces.lean
  Subject:   REQUESTS ON WORKSPACES (`ceres/__internal__/app/handlers/workspaces.py`), and which workspaces
             a logged-out visitor is shown.

  A workspace is placed on the engine root or on a component, is shared or has an owner, and may carry
  the marker that shows it to logged-out visitors. An update names any of its fields; what it leaves out
  keeps its stored value.

  * `createWorkspace`, `updateWorkspace`, `deleteWorkspace` -- the handlers, their checks apart;
  * `Shared` -- a marked workspace is on the engine root and has no owner;
  * `Keeps` -- a permitted request does not set the marker on any other workspace;
  * **`marked_are_shared`** -- every store of a run is `Shared` exactly when each of its requests `Keeps`;
  * `private_marked` -- an owner marks the workspace of their own.
-/
import Ceres.Library.Run
import Ceres.Library.Dict
import Ceres.Library.Wildcard

namespace Ceres.Server.Workspaces

open Ceres.Library

set_option linter.unusedSectionVars false

/-! ## 1. Access -/

inductive ComponentAccessLevel where
  | deny
  | view
  | operate
  | manage
  deriving DecidableEq

/-- The order of the levels. -/
def ComponentAccessLevel.rank : ComponentAccessLevel → Nat
  | .deny => 0
  | .view => 1
  | .operate => 2
  | .manage => 3

inductive Error where
  | notFound
  | notPermitted
  /-- The id is taken. -/
  | conflict
  deriving DecidableEq

variable {υ ι δ : Type} [DecidableEq υ] [DecidableEq ι]

structure User (υ : Type) where
  id : υ
  admin : Bool

structure Actor (υ : Type) where
  user : Option (User υ)
  unrestricted : Bool

def Actor.admin (actor : Actor υ) : Bool := actor.unrestricted || actor.user.any User.admin

/-- Who makes a request, and the access they have at that moment: on the engine root and on each
    component, `none` for a component that is not there. -/
structure Caller (υ : Type) where
  actor : Actor υ
  user : Option (User υ)
  engineAccess : Option ComponentAccessLevel
  componentAccess : Text → Option (Option ComponentAccessLevel)

/-- The address of the engine. -/
def ENGINE : Text := ['~']

def resolvePlacementLevel (caller : Caller υ) (scope : Text) : Option ComponentAccessLevel :=
  if caller.actor.admin then some .manage
  else if scope = ENGINE then caller.engineAccess
  else (caller.componentAccess scope).join

def requirePlacementAccess (caller : Caller υ) (scope : Text) (minimum : ComponentAccessLevel) :
    Except Error Unit :=
  match resolvePlacementLevel caller scope with
  | none => .error .notFound
  | some access =>
    if access.rank < ComponentAccessLevel.view.rank then .error .notFound
    else if access.rank < minimum.rank then .error .notPermitted
    else .ok ()

def requireEngineManage (caller : Caller υ) : Except Error Unit :=
  requirePlacementAccess caller ENGINE .manage

/-! ## 2. The handlers -/

structure Workspace (υ δ : Type) where
  name : String
  scope : Text
  ownerId : Option υ
  showWhenLoggedOut : Bool
  data : δ

/-- The fields an update names. -/
structure WorkspaceUpdate (υ δ : Type) where
  name : Option String
  scope : Option Text
  ownerId : Option (Option υ)
  showWhenLoggedOut : Option Bool
  data : Option δ

/-- The workspaces, and the working copies users hold against them. -/
structure Store (ι υ δ : Type) where
  workspaces : Dict ι (Workspace υ δ)
  edits : Dict (υ × ι) δ

def isVisible (user : Option (User υ)) (workspace : Workspace υ δ)
    (level : Option ComponentAccessLevel) : Bool :=
  workspace.ownerId.all (fun owner => user.any fun user => decide (owner = user.id)) &&
    level.any fun level => decide (ComponentAccessLevel.view.rank ≤ level.rank)

def requireVisible (caller : Caller υ) (workspace : Workspace υ δ) : Except Error Unit :=
  if isVisible caller.user workspace (resolvePlacementLevel caller workspace.scope) then .ok ()
  else .error .notFound

def requireWritable (caller : Caller υ) (workspace : Workspace υ δ) : Except Error Unit := do
  requireVisible caller workspace
  if workspace.ownerId.isSome then .ok ()
  else requirePlacementAccess caller workspace.scope .manage

/-- What creating a workspace takes where it is placed. -/
def placementMinimum (ownerId : Option υ) : ComponentAccessLevel :=
  if ownerId.isSome then .view else .manage

/-- A caller may only claim ownership for themselves. -/
def requireOwnClaim (caller : Caller υ) (workspace : Workspace υ δ) : Except Error Unit :=
  match workspace.ownerId, caller.user with
  | some owner, some user => if owner = user.id then .ok () else .error .notPermitted
  | _, _ => .ok ()

def checkCreate (caller : Caller υ) (workspace : Workspace υ δ) : Except Error Unit := do
  requirePlacementAccess caller workspace.scope (placementMinimum workspace.ownerId)
  requireOwnClaim caller workspace
  if workspace.showWhenLoggedOut then requireEngineManage caller else .ok ()

def createWorkspace (s : Store ι υ δ) (caller : Caller υ) (id : ι) (workspace : Workspace υ δ) :
    Except Error (Store ι υ δ) := do
  checkCreate caller workspace
  if (s.workspaces.get id).isSome then .error .conflict
  else .ok { s with workspaces := s.workspaces ++ [(id, workspace)] }

namespace WorkspaceUpdate

/-- Ownership moves in either direction, and both take manage on the placement; it is only ever taken
    for oneself. -/
def requireOwnership (caller : Caller υ) (workspace : Workspace υ δ) (update : WorkspaceUpdate υ δ) :
    Except Error Unit :=
  match update.ownerId with
  | none => .ok ()
  | some owner =>
    if owner = workspace.ownerId then .ok ()
    else if owner.all fun owner => caller.user.any fun user => decide (owner = user.id) then
      requirePlacementAccess caller workspace.scope .manage
    else .error .notPermitted

def requireMarker (caller : Caller υ) (workspace : Workspace υ δ) (update : WorkspaceUpdate υ δ) :
    Except Error Unit :=
  match update.showWhenLoggedOut with
  | none => .ok ()
  | some shown =>
    if shown = workspace.showWhenLoggedOut then .ok () else requireEngineManage caller

/-- Where the update moves the workspace, if it does. -/
def destination (workspace : Workspace υ δ) (update : WorkspaceUpdate υ δ) : Option Text :=
  update.scope.filter fun scope => decide (scope ≠ workspace.scope)

def requireDestination (caller : Caller υ) (workspace : Workspace υ δ) (update : WorkspaceUpdate υ δ) :
    Except Error Unit :=
  match update.destination workspace with
  | none => .ok ()
  | some scope =>
    requirePlacementAccess caller scope (placementMinimum (update.ownerId.getD workspace.ownerId))

/-- All that an update takes. -/
def check (caller : Caller υ) (workspace : Workspace υ δ) (update : WorkspaceUpdate υ δ) :
    Except Error Unit := do
  requireWritable caller workspace
  update.requireOwnership caller workspace
  update.requireMarker caller workspace
  update.requireDestination caller workspace

/-- The marker is cleared by a move to a component. -/
def clearMoved (workspace : Workspace υ δ) (update : WorkspaceUpdate υ δ) : WorkspaceUpdate υ δ :=
  match update.destination workspace with
  | none => update
  | some scope => if scope = ENGINE then update else { update with showWhenLoggedOut := some false }

/-- The marker is cleared by an owner. -/
def clearOwned (update : WorkspaceUpdate υ δ) : WorkspaceUpdate υ δ :=
  if (update.ownerId.getD none).isSome then { update with showWhenLoggedOut := some false } else update

/-- The row after the update. -/
def apply (workspace : Workspace υ δ) (update : WorkspaceUpdate υ δ) : Workspace υ δ where
  name := update.name.getD workspace.name
  scope := update.scope.getD workspace.scope
  ownerId := update.ownerId.getD workspace.ownerId
  showWhenLoggedOut := update.showWhenLoggedOut.getD workspace.showWhenLoggedOut
  data := update.data.getD workspace.data

end WorkspaceUpdate

section handlers

-- how a payload's widgets are merged and pinned has no part in what follows
variable (mergeRedactedWidgets : δ → δ → δ) (pinWidgetAddresses : δ → Text → δ)

/-- A restricted stub never overwrites a widget that is stored. -/
def mergeData (workspace : Workspace υ δ) (update : WorkspaceUpdate υ δ) : WorkspaceUpdate υ δ :=
  { update with data := update.data.map (mergeRedactedWidgets workspace.data) }

/-- A move pins the addresses that were relative to the old placement. -/
def pinData (workspace : Workspace υ δ) (update : WorkspaceUpdate υ δ) : WorkspaceUpdate υ δ :=
  if (update.destination workspace).isSome then
    { update with data := some (pinWidgetAddresses (update.data.getD workspace.data) workspace.scope) }
  else update

def pinEdits (workspace : Workspace υ δ) (update : WorkspaceUpdate υ δ) (id : ι)
    (edits : Dict (υ × ι) δ) : Dict (υ × ι) δ :=
  if (update.destination workspace).isSome then
    edits.map fun edit =>
      if edit.1.2 = id then (edit.1, pinWidgetAddresses edit.2 workspace.scope) else edit
  else edits

def updateWorkspace (s : Store ι υ δ) (caller : Caller υ) (id : ι) (update : WorkspaceUpdate υ δ) :
    Except Error (Store ι υ δ) :=
  match s.workspaces.get id with
  | none => .error .notFound
  | some workspace => do
    let merged := mergeData mergeRedactedWidgets workspace update
    merged.check caller workspace
    let pinned := pinData pinWidgetAddresses workspace merged
    let cleared := (pinned.clearMoved workspace).clearOwned
    .ok
      { workspaces := s.workspaces.set id (cleared.apply workspace)
        edits := pinEdits pinWidgetAddresses workspace merged id s.edits }

/-- The working copies go with the workspace. -/
def deleteWorkspace (s : Store ι υ δ) (caller : Caller υ) (id : ι) : Except Error (Store ι υ δ) :=
  match s.workspaces.get id with
  | none => .error .notFound
  | some workspace => do
    requireWritable caller workspace
    .ok
      { workspaces := s.workspaces.erase id
        edits := s.edits.filter fun edit => decide (edit.1.2 ≠ id) }

inductive Request (ι υ δ : Type) where
  | create (id : ι) (workspace : Workspace υ δ)
  | update (id : ι) (update : WorkspaceUpdate υ δ)
  | delete (id : ι)

def handle (s : Store ι υ δ) (caller : Caller υ) : Request ι υ δ → Except Error (Store ι υ δ)
  | .create id workspace => createWorkspace s caller id workspace
  | .update id update => updateWorkspace mergeRedactedWidgets pinWidgetAddresses s caller id update
  | .delete id => deleteWorkspace s caller id

/-- A request that is refused leaves the store as it is. -/
def step (s : Store ι υ δ) (request : Caller υ × Request ι υ δ) : Option (Store ι υ δ) :=
  match handle mergeRedactedWidgets pinWidgetAddresses s request.1 request.2 with
  | .ok s' => some s'
  | .error _ => some s

end handlers

/-! ## 3. Who is marked -/

/-- A marked workspace is on the engine root and has no owner. -/
def Workspace.Fits (workspace : Workspace υ δ) : Prop :=
  workspace.showWhenLoggedOut = true → workspace.scope = ENGINE ∧ workspace.ownerId = none

/-- Every marked workspace is shared, on the engine root. -/
def Shared (s : Store ι υ δ) : Prop := ∀ entry ∈ s.workspaces, entry.2.Fits

/-- An update that names the marker clears it again, or leaves the workspace on the engine root and
    without an owner. -/
def WorkspaceUpdate.Fits (workspace : Workspace υ δ) (update : WorkspaceUpdate υ δ) : Prop :=
  update.showWhenLoggedOut = some true →
    (update.ownerId.getD none).isSome = true ∨
      (∃ scope ∈ update.destination workspace, scope ≠ ENGINE) ∨
      (update.scope.getD workspace.scope = ENGINE ∧ update.ownerId.getD workspace.ownerId = none)

/-- A permitted request marks only what is shared, on the engine root. -/
def Keeps (s : Store ι υ δ) : Caller υ × Request ι υ δ → Prop
  | (caller, .create id workspace) =>
      checkCreate caller workspace = .ok () → s.workspaces.get id = none → workspace.Fits
  | (caller, .update id update) => ∀ workspace ∈ s.workspaces.get id,
      update.check caller workspace = .ok () → update.Fits workspace
  | (_, .delete _) => True

section proofs

variable {mergeRedactedWidgets : δ → δ → δ} {pinWidgetAddresses : δ → Text → δ}

theorem mergeData_check (caller : Caller υ) (workspace : Workspace υ δ) (update : WorkspaceUpdate υ δ) :
    (mergeData mergeRedactedWidgets workspace update).check caller workspace =
      update.check caller workspace := rfl

/-- The payload has no part in where a workspace is, whose it is and whether it is marked. -/
theorem pinData_fields (workspace : Workspace υ δ) (update : WorkspaceUpdate υ δ) :
    (pinData pinWidgetAddresses workspace update).scope = update.scope ∧
      (pinData pinWidgetAddresses workspace update).ownerId = update.ownerId ∧
      (pinData pinWidgetAddresses workspace update).showWhenLoggedOut = update.showWhenLoggedOut := by
  unfold pinData
  split
  · exact ⟨rfl, rfl, rfl⟩
  · exact ⟨rfl, rfl, rfl⟩

theorem clearMoved_fields (workspace : Workspace υ δ) (update : WorkspaceUpdate υ δ) :
    (update.clearMoved workspace).scope = update.scope ∧
      (update.clearMoved workspace).ownerId = update.ownerId := by
  unfold WorkspaceUpdate.clearMoved
  split
  · exact ⟨rfl, rfl⟩
  · split
    · exact ⟨rfl, rfl⟩
    · exact ⟨rfl, rfl⟩

theorem cleared_marker (workspace : Workspace υ δ) (update : WorkspaceUpdate υ δ) :
    ((update.clearMoved workspace).clearOwned).showWhenLoggedOut =
      if (update.ownerId.getD none).isSome = true ∨ ∃ scope ∈ update.destination workspace, scope ≠ ENGINE
      then some false else update.showWhenLoggedOut := by
  unfold WorkspaceUpdate.clearOwned
  rw [(clearMoved_fields workspace update).2]
  by_cases howner : (update.ownerId.getD none).isSome = true
  · rw [if_pos howner, if_pos (.inl howner)]
  · rw [if_neg howner]
    unfold WorkspaceUpdate.clearMoved
    cases hdestination : update.destination workspace with
    | none => simp [howner]
    | some scope =>
      by_cases hscope : scope = ENGINE
      · simp [howner, hscope]
      · simp [howner, hscope]

theorem clearOwned_fields (update : WorkspaceUpdate υ δ) :
    update.clearOwned.scope = update.scope ∧ update.clearOwned.ownerId = update.ownerId := by
  unfold WorkspaceUpdate.clearOwned
  split
  · exact ⟨rfl, rfl⟩
  · exact ⟨rfl, rfl⟩

variable {workspace : Workspace υ δ}

theorem stays_on_engine {update : WorkspaceUpdate υ δ} (h : workspace.scope = ENGINE)
    (hmoved : ¬ ∃ scope ∈ update.destination workspace, scope ≠ ENGINE) :
    update.scope.getD workspace.scope = ENGINE := by
  cases hscope : update.scope with
  | none => exact h
  | some scope =>
    by_contra hne
    have hscopene : scope ≠ ENGINE := hne
    refine hmoved ⟨scope, ?_, hscopene⟩
    simp [WorkspaceUpdate.destination, hscope, h, hscopene]

/-- **What an update leaves** fits exactly when the update does. -/
theorem apply_fits (h : workspace.Fits) (update : WorkspaceUpdate υ δ) :
    (((update.clearMoved workspace).clearOwned).apply workspace).Fits ↔ update.Fits workspace := by
  have hscope : ((update.clearMoved workspace).clearOwned).scope = update.scope :=
    (clearOwned_fields _).1.trans (clearMoved_fields workspace update).1
  have howner : ((update.clearMoved workspace).clearOwned).ownerId = update.ownerId :=
    (clearOwned_fields _).2.trans (clearMoved_fields workspace update).2
  unfold Workspace.Fits WorkspaceUpdate.apply
  simp only [hscope, howner, cleared_marker]
  by_cases hcleared : (update.ownerId.getD none).isSome = true ∨
      ∃ scope ∈ update.destination workspace, scope ≠ ENGINE
  · rw [if_pos hcleared]
    refine iff_of_true (fun hfalse => absurd hfalse (by simp)) fun _ => ?_
    exact hcleared.imp_right .inl
  · rw [if_neg hcleared]
    rw [not_or] at hcleared
    have hunowned : update.ownerId.getD none = none := by simpa using hcleared.1
    cases hshown : update.showWhenLoggedOut with
    | none =>
      -- the marker it had stays, and so do the engine root and the missing owner
      refine iff_of_true (fun hmarked => ?_) (by simp [WorkspaceUpdate.Fits, hshown])
      obtain ⟨hengine, hnone⟩ := h hmarked
      refine ⟨stays_on_engine hengine hcleared.2, ?_⟩
      cases hupdate : update.ownerId with
      | none => exact hnone
      | some owner => simpa [hupdate] using hunowned
    | some shown =>
      cases shown with
      | false => exact iff_of_true (by simp) (by simp [WorkspaceUpdate.Fits, hshown])
      | true =>
        unfold WorkspaceUpdate.Fits
        rw [hshown]
        constructor
        · exact fun hfits _ => .inr (.inr (hfits rfl))
        · intro hfits _
          rcases hfits rfl with hsome | hmoved | hshared
          · exact absurd hsome hcleared.1
          · exact absurd hmoved hcleared.2
          · exact hshared

variable {caller : Caller υ}

theorem create_shared {s s' : Store ι υ δ} {id : ι} (h : Shared s)
    (hcreate : createWorkspace s caller id workspace = .ok s') :
    Shared s' ↔ Keeps s (caller, .create id workspace) := by
  unfold createWorkspace at hcreate
  cases hcheck : checkCreate caller workspace with
  | error error =>
    rw [hcheck] at hcreate
    exact absurd hcreate (by simp [bind, Except.bind])
  | ok _ =>
    rw [hcheck] at hcreate
    simp only [bind, Except.bind] at hcreate
    split at hcreate
    · exact absurd hcreate (by simp)
    · rename_i hnone
      obtain rfl := Except.ok.inj hcreate
      constructor
      · exact fun hshared _ _ => hshared _ (List.mem_append_right _ (List.mem_singleton_self _))
      · intro hkeeps entry hentry
        rcases List.mem_append.mp hentry with hentry | hentry
        · exact h entry hentry
        · rw [List.mem_singleton.mp hentry]
          exact hkeeps hcheck (by simpa using hnone)

theorem update_shared {s s' : Store ι υ δ} {id : ι} {update : WorkspaceUpdate υ δ} (h : Shared s)
    (hupdate : updateWorkspace mergeRedactedWidgets pinWidgetAddresses s caller id update = .ok s') :
    Shared s' ↔ Keeps s (caller, .update id update) := by
  unfold updateWorkspace at hupdate
  cases hget : s.workspaces.get id with
  | none =>
    rw [hget] at hupdate
    exact absurd hupdate (by simp)
  | some workspace =>
    rw [hget] at hupdate
    simp only [mergeData_check] at hupdate
    cases hcheck : update.check caller workspace with
    | error error =>
      rw [hcheck] at hupdate
      exact absurd hupdate (by simp [bind, Except.bind])
    | ok _ =>
      rw [hcheck] at hupdate
      simp only [bind, Except.bind] at hupdate
      obtain rfl := Except.ok.inj hupdate
      obtain ⟨hscope, howner, hshown⟩ := @pinData_fields _ _ _ pinWidgetAddresses workspace
        (mergeData mergeRedactedWidgets workspace update)
      have hold := h (id, workspace) (Dict.mem_of_get hget)
      have happly := apply_fits hold
        (pinData pinWidgetAddresses workspace (mergeData mergeRedactedWidgets workspace update))
      have hfits : (pinData pinWidgetAddresses workspace
          (mergeData mergeRedactedWidgets workspace update)).Fits workspace ↔ update.Fits workspace := by
        unfold WorkspaceUpdate.Fits WorkspaceUpdate.destination
        rw [hscope, howner, hshown]
        rfl
      rw [hfits] at happly
      constructor
      · intro hshared other hother _
        rw [hget, Option.mem_some_iff] at hother
        rw [← hother]
        refine happly.mp (hshared (id, _) (Dict.mem_of_get ?_))
        rw [Dict.get_set, if_pos rfl]
        rfl
      · intro hkeeps entry hentry
        rcases Dict.mem_set hentry with hentry | hentry
        · exact h entry hentry
        · rw [hentry]
          exact happly.mpr (hkeeps workspace hget hcheck)

theorem delete_shared {s s' : Store ι υ δ} {id : ι} (h : Shared s)
    (hdelete : deleteWorkspace s caller id = .ok s') : Shared s' := by
  unfold deleteWorkspace at hdelete
  cases hget : s.workspaces.get id with
  | none =>
    rw [hget] at hdelete
    exact absurd hdelete (by simp)
  | some workspace =>
    rw [hget] at hdelete
    cases hcheck : requireWritable caller workspace with
    | error error =>
      simp only [hcheck, bind, Except.bind] at hdelete
      exact absurd hdelete (by simp)
    | ok _ =>
      simp only [hcheck, bind, Except.bind] at hdelete
      obtain rfl := Except.ok.inj hdelete
      exact fun entry hentry => h entry (Dict.mem_erase.mp hentry).1

theorem refused_keeps {s : Store ι υ δ} {request : Request ι υ δ} {error : Error}
    (h : handle mergeRedactedWidgets pinWidgetAddresses s caller request = .error error) :
    Keeps s (caller, request) := by
  cases request with
  | create id workspace =>
    intro hcheck hnone
    simp only [handle, createWorkspace, hcheck, hnone, bind, Except.bind] at h
    exact absurd h (by simp)
  | update id update =>
    intro workspace hget hcheck
    rw [Option.mem_def] at hget
    simp only [handle, updateWorkspace, hget, mergeData_check, hcheck, bind, Except.bind] at h
    exact absurd h (by simp)
  | delete id => trivial

/-- **One request.** -/
theorem step_shared (s : Store ι υ δ) (request : Caller υ × Request ι υ δ) (s' : Store ι υ δ)
    (h : Shared s) (hstep : step mergeRedactedWidgets pinWidgetAddresses s request = some s') :
    Shared s' ↔ Keeps s request := by
  obtain ⟨caller, request⟩ := request
  unfold step at hstep
  split at hstep
  · rename_i s'' hhandle
    obtain rfl := Option.some.inj hstep
    cases request with
    | create id workspace => exact create_shared h hhandle
    | update id update => exact update_shared h hhandle
    | delete id => exact iff_of_true (delete_shared h hhandle) trivial
  · rename_i error hhandle
    obtain rfl := Option.some.inj hstep
    exact iff_of_true h (refused_keeps hhandle)

theorem step_ne_none (s : Store ι υ δ) (request : Caller υ × Request ι υ δ) :
    step mergeRedactedWidgets pinWidgetAddresses s request ≠ none := by
  unfold step
  split
  · exact Option.some_ne_none _
  · exact Option.some_ne_none _

end proofs

/-- **Only shared workspaces of the engine root are marked**, in every store that a run of requests
    reaches, exactly when no permitted request of the run marks another one: when each create that sets
    the marker is on the engine root and without an owner, and each update that names it either clears
    it by an owner or a component it names as well or leaves the workspace there without an owner. -/
theorem marked_are_shared (mergeRedactedWidgets : δ → δ → δ) (pinWidgetAddresses : δ → Text → δ)
    (requests : List (Caller υ × Request ι υ δ)) :
    Always (step mergeRedactedWidgets pinWidgetAddresses) Shared ⟨[], []⟩ requests ↔
      Along (step mergeRedactedWidgets pinWidgetAddresses) Keeps ⟨[], []⟩ requests := by
  refine always_iff_along (fun _ h => h) (fun s request hnone => absurd hnone (step_ne_none s request))
    (fun s request s' h hstep => (step_shared s request s' h hstep).mp)
    (fun s request s' h hstep => (step_shared s request s' h hstep).mpr) requests _ ?_
  exact fun entry hentry => absurd hentry List.not_mem_nil

/-- An administrator who makes every request. -/
def administrator : Caller Nat where
  actor := ⟨some ⟨1, true⟩, false⟩
  user := some ⟨1, true⟩
  engineAccess := some .view
  componentAccess := fun _ => none

/-- **A private workspace is marked.** The update names neither a placement nor an owner, so nothing
    clears what it sets. -/
theorem private_marked :
    ¬ ∀ requests : List (Caller Nat × Request Nat Nat Unit),
      Always (step (fun _ data => data) (fun data _ => data)) Shared ⟨[], []⟩ requests := by
  intro h
  have hrun := h [(administrator, .create 7 ⟨"mine", ENGINE, some 1, false, ()⟩),
    (administrator, .update 7 ⟨none, none, none, some true, none⟩)]
  have hshared : Shared (⟨[(7, ⟨"mine", ENGINE, some 1, true, ()⟩)], []⟩ : Store Nat Nat Unit) :=
    (hrun.2 _ rfl).2 _ rfl
  exact absurd (hshared _ (List.mem_singleton_self _) rfl).2 (by simp)

end Ceres.Server.Workspaces
