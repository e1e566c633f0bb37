/-
  File:      Ceres/Component/Reconcile.lean
  Subject:   A NEW CONFIGURATION FOR A RUNNING ENGINE (`engine.py`: `_get_apply_actions`,
             `_get_pending_component_actions`, `_execute_component_actions`; `config.py`:
             `ComponentConfig.create`).

  An address is the list of its names. What a component is configured with apart from its children is a
  value of `κ`; a component that was made without a configuration has none. A creation makes the components
  of its entry and no others.

  * `applyActions` -- what is to be created, recreated and removed, `none` where the recursion over the
    referencers does not end;
  * `execute` -- one action, with what becomes of the creation;
  * `pending_covers`, `pending_planned` -- every difference has an action, and what an action tells of the
    components that are running;
  * **`reconciled`** -- the configuration is reached when every creation succeeds, and nothing beyond it is
    there when some fail, so long as no creation lacks its parent;
  * `orphan_at_the_top` -- a component whose parent could not be recreated.
-/
import Ceres.Library.Closure
import Ceres.Library.Forest
import Ceres.Library.Run

namespace Ceres.Component.Reconcile

open Ceres.Library

set_option linter.unusedSectionVars false

variable {κ : Type} [DecidableEq κ]

abbrev Address : Type := List String

/-! ## 1. The actions -/

/-- The components of an engine, with the record of who refers to whom. -/
structure Running (κ : Type) where
  components : Forest String (Option κ)
  referencers : Address → List Address
  closed : ∀ address, ∀ referencer ∈ referencers address, (components.value referencer).isSome

inductive Action where
  | create (address : Address)
  | recreate (address : Address)
  | remove (address : Address)
  deriving DecidableEq

def Action.address : Action → Address
  | .create address => address
  | .recreate address => address
  | .remove address => address

section Plan

variable (running : Running κ) (config : Forest String κ)

/-- `get_referencing_components(recursive=True)`; a longer chain than there are components goes round. -/
def getReferencingComponents (address : Address) : Option (List Address) :=
  Closure.collect running.referencers (running.components.paths.toFinset.card + 1) address

/-- The component and, unless they are part of its subtree, those that refer to it. -/
def recreations (address : Address) (referencers : List Address) : List Action :=
  (address :: referencers.filter fun referencer => !address.isPrefixOf referencer).map .recreate

def pendingComponentActions : Nat → Address → Option (List Action)
  | 0, _ => none
  | depth + 1, address =>
    match running.components.node address, config.node address with
    | none, none => some []
    | none, some _ => some [.create address]
    | some _, none => some [.remove address]
    | some (old, children), some (new, components) =>
      if old ≠ some new then
        (getReferencingComponents running address).map (recreations address)
      else
        Closure.gather (fun name => pendingComponentActions depth (address ++ [name]))
          (children.names ++ components.names).eraseDups

def applyActions : Option (List Action) :=
  Closure.gather (fun name => pendingComponentActions running config (running.components.height + 1) [name])
    (running.components.names ++ config.names).eraseDups

end Plan

/-! ## 2. Executing them -/

/-- What becomes of a creation. -/
inductive Outcome where
  | created
  /-- It raises before the component is attached. -/
  | refused
  /-- It fails later, and the tree that was built is detached. -/
  | withdrawn
  /-- The component's own set-up raises: it stays attached, without its children. -/
  | left
  deriving DecidableEq

abbrev State (κ : Type) : Type := Forest String (Option κ)

/-- The container a creation attaches to: the parent, or the engine where no component is found. -/
def container (state : State κ) (address : Address) : Address :=
  if (state.value address.dropLast).isSome then address.dropLast else []

/-- The creation of an entry. The engine detaches a component that has the name already. -/
def create (config : κ × Forest String κ) (container : Address) (name : String) (state : State κ) :
    Outcome → State κ
  | .created => Forest.attach (.cons name (some config.1) (config.2.map some) .nil) container
      (state.erase (container ++ [name]))
  | .refused => state
  | .withdrawn => state.erase (container ++ [name])
  | .left => Forest.attach (.cons name (some config.1) .nil .nil) container
      (state.erase (container ++ [name]))

/-- One turn of the loop of `_execute_component_actions`. -/
def execute (config : Forest String κ) (state : State κ) (outcome : Outcome) : Action → State κ
  | .create address =>
    match config.node address with
    | none => state
    | some entry =>
      if (state.value address).isSome then state
      else create entry (container state address) (address.getLastD "") state outcome
  | .recreate address =>
    match config.node address with
    | none => state
    | some entry =>
      create entry (container state address) (address.getLastD "") (state.erase address) outcome
  | .remove address => state.erase address

def step (config : Forest String κ) (state : State κ) (turn : Action × Outcome) : Option (State κ) :=
  some (execute config state turn.2 turn.1)

/-- The action creates no component, or has the parent of the one it creates. -/
def Sheltered (config : Forest String κ) (state : State κ) (turn : Action × Outcome) : Prop :=
  match turn.1 with
  | .create address => (config.value address).isSome → ¬ (state.value address).isSome →
      address.dropLast = [] ∨ (state.value address.dropLast).isSome
  | .recreate address => (config.value address).isSome →
      address.dropLast = [] ∨ (state.value address.dropLast).isSome
  | .remove _ => True

/-! ## 3. What is planned -/

section Planned

variable (running : Running κ) (config : Forest String κ)

/-- What the configuration has under an address. -/
def wanted (address : Address) : Option (Option κ) := (config.value address).map some

/-- What an action tells of the components that were running. -/
def Planned : Action → Prop
  | .create address => address ≠ [] ∧ running.components.value address = none ∧
      (wanted config address).isSome ∧
      (address.dropLast = [] ∨ (running.components.value address.dropLast).isSome)
  | .recreate address => address ≠ [] ∧ (running.components.value address).isSome
  | .remove address => address ≠ [] ∧ wanted config address = none

/-- The action is not skipped for want of an entry. -/
def Effective : Action → Prop
  | .create address => (wanted config address).isSome
  | .recreate address => (wanted config address).isSome
  | .remove _ => True

/-- The first component on the way down that is configured otherwise. -/
def Changed (address : Address) : Prop :=
  (∃ old new, running.components.value address = some old ∧ config.value address = some new ∧
    old ≠ some new) ∧
  ∀ above, above ≠ [] → above <+: address → above ≠ address →
    running.components.value above = wanted config above

/-- No cycle of references is reached from a component that is to be recreated. -/
def Acyclic : Prop :=
  ∀ address, Changed running config address →
    ∀ other, Relation.ReflTransGen (Closure.Step running.referencers) address other →
      ¬ Relation.TransGen (Closure.Step running.referencers) other other

variable {running config}

variable {address : Address}

theorem value_of_node {ν : Type} {forest : Forest String ν} {found : ν × Forest String ν}
    (h : forest.node address = some found) : forest.value address = some found.1 := by
  unfold Forest.value
  rw [h]
  rfl

theorem value_of_node_none {ν : Type} {forest : Forest String ν}
    (h : forest.node address = none) : forest.value address = none := by
  unfold Forest.value
  rw [h]
  rfl

theorem wanted_below {address below : Address} (haddress : address ≠ [])
    (hnone : wanted config address = none) (hbelow : address <+: below) : wanted config below = none := by
  unfold wanted at hnone ⊢
  rw [Option.map_eq_none_iff] at hnone ⊢
  exact Forest.value_below haddress hnone hbelow

theorem referencer_running {address referencer : Address}
    (h : Relation.TransGen (Closure.Step running.referencers) address referencer) :
    (running.components.value referencer).isSome := by
  cases h with
  | single h => exact running.closed _ _ h
  | tail _ h => exact running.closed _ _ h

theorem ne_nil_of_running (h : (running.components.value address).isSome) : address ≠ [] := by
  intro hnil
  rw [hnil] at h
  exact absurd h (by simp)

/-- **Each action comes from a component that is missing, superfluous, or there.** -/
theorem pending_planned {depth : Nat} {actions : List Action}
    (h : pendingComponentActions running config depth address = some actions) (hne : address ≠ [])
    (hparent : address.dropLast = [] ∨ (running.components.value address.dropLast).isSome) :
    ∀ action ∈ actions, Planned running config action := by
  induction depth generalizing address actions with
  | zero => simp [pendingComponentActions] at h
  | succ depth ih =>
    rw [pendingComponentActions] at h
    split at h
    · cases h
      simp
    · next hrunning hconfig =>
      cases h
      intro action haction
      rw [List.mem_singleton.mp haction]
      refine ⟨hne, value_of_node_none hrunning, ?_, hparent⟩
      rw [wanted, value_of_node hconfig]
      rfl
    · next hrunning hconfig =>
      cases h
      intro action haction
      rw [List.mem_singleton.mp haction]
      refine ⟨hne, ?_⟩
      rw [wanted, value_of_node_none hconfig]
      rfl
    · next old children new components hrunning hconfig =>
      have hsome : (running.components.value address).isSome := by
        rw [value_of_node hrunning]
        rfl
      split at h
      · obtain ⟨referencers, hcollect, rfl⟩ := Option.map_eq_some_iff.mp h
        intro action haction
        obtain ⟨other, hother, rfl⟩ := List.mem_map.mp haction
        rcases List.mem_cons.mp hother with rfl | hother
        · exact ⟨hne, hsome⟩
        · have hreached := (Closure.mem_collect hcollect other).mp (List.mem_of_mem_filter hother)
          have hthere := referencer_running hreached
          exact ⟨ne_nil_of_running hthere, hthere⟩
      · intro action haction
        obtain ⟨name, -, found, hfound, haction⟩ := ((Closure.gather_eq_some h).2 action).mp haction
        refine ih hfound (by simp) (.inr ?_) action haction
        rw [List.dropLast_concat]
        exact hsome

/-- **Every difference is covered by an action.** -/
theorem pending_covers {depth : Nat} {actions : List Action}
    (h : pendingComponentActions running config depth address = some actions) (hne : address ≠ [])
    {path : Address} (hpath : address <+: path) (hdiffers : running.components.value path ≠ wanted config path) :
    ∃ action ∈ actions, Effective config action ∧ action.address <+: path := by
  induction depth generalizing address actions with
  | zero => simp [pendingComponentActions] at h
  | succ depth ih =>
    rw [pendingComponentActions] at h
    split at h
    · next hrunning hconfig =>
      have hwanted : wanted config address = none := by
        rw [wanted, value_of_node_none hconfig]
        rfl
      rw [Forest.value_below hne (value_of_node_none hrunning) hpath, wanted_below hne hwanted hpath] at hdiffers
      exact absurd rfl hdiffers
    · next hrunning hconfig =>
      cases h
      refine ⟨.create address, List.mem_singleton.mpr rfl, ?_, hpath⟩
      rw [Effective, wanted, value_of_node hconfig]
      rfl
    · cases h
      exact ⟨.remove address, List.mem_singleton.mpr rfl, trivial, hpath⟩
    · next old children new components hrunning hconfig =>
      split at h
      · obtain ⟨referencers, -, rfl⟩ := Option.map_eq_some_iff.mp h
        refine ⟨.recreate address, List.mem_cons_self, ?_, hpath⟩
        rw [Effective, wanted, value_of_node hconfig]
        rfl
      · next hsame =>
        obtain ⟨more, rfl⟩ := hpath
        cases more with
        | nil =>
          rw [List.append_nil, wanted, value_of_node hrunning, value_of_node hconfig] at hdiffers
          exact absurd (by simpa using hsame) hdiffers
        | cons name more =>
          have hchild : address ++ [name] <+: address ++ name :: more :=
            (List.prefix_append_right_inj address).mpr (by simp)
          by_cases hname : name ∈ children.names ++ components.names
          · obtain ⟨hall, hmem⟩ := Closure.gather_eq_some h
            obtain ⟨found, hfound⟩ := hall name (List.mem_eraseDups.mpr hname)
            obtain ⟨action, haction, heffective⟩ := ih hfound (by simp) hchild
            exact ⟨action, (hmem action).mpr ⟨name, List.mem_eraseDups.mpr hname, found, hfound, haction⟩,
              heffective⟩
          · -- neither has a child of the name
            rw [List.mem_append, not_or, Forest.mem_names, Forest.mem_names] at hname
            have hnone : ∀ {ν : Type} {forest : Forest String ν} {found : ν × Forest String ν},
                forest.node address = some found → ¬ (found.2.find name).isSome →
                  forest.value (address ++ [name]) = none := by
              intro ν forest found hnode hfind
              rw [Forest.value_append hne (by simp), hnode, Option.bind_some, Forest.value_singleton]
              simpa using hfind
            have hwanted : wanted config (address ++ [name]) = none := by
              rw [wanted, hnone hconfig hname.2]
              rfl
            rw [Forest.value_below (by simp) (hnone hrunning hname.1) hchild,
              wanted_below (by simp) hwanted hchild] at hdiffers
            exact absurd rfl hdiffers

/-- **Without cycles the actions are found.** -/
theorem pending_isSome (hacyclic : Acyclic running config) {depth : Nat} (hne : address ≠ []) (hdepth : 1 ≤ depth)
    (hheight : ∀ found, running.components.node address = some found → found.2.height + 2 ≤ depth)
    (habove : ∀ above, above ≠ [] → above <+: address → above ≠ address →
      running.components.value above = wanted config above) :
    (pendingComponentActions running config depth address).isSome := by
  induction depth generalizing address with
  | zero => exact absurd hdepth (by decide)
  | succ depth ih =>
    rw [pendingComponentActions]
    split
    · rfl
    · rfl
    · rfl
    · next old children new components hrunning hconfig =>
      split
      · next hchanged =>
        rw [Option.isSome_map]
        refine Closure.collect_isSome _ (fun other hother => ?_) (hacyclic address ⟨⟨old, new, ?_, ?_, hchanged⟩, habove⟩)
        · exact List.mem_toFinset.mpr (Forest.mem_paths (referencer_running hother))
        · exact value_of_node hrunning
        · exact value_of_node hconfig
      · next hsame =>
        have hroom : children.height + 2 ≤ depth + 1 := hheight _ hrunning
        refine Closure.gather_isSome fun name _ => ih (by simp) (by omega) (fun found hfound => ?_) ?_
        · rw [Forest.node_append hne (by simp), hrunning, Option.bind_some] at hfound
          have hbelow : [name].length + found.2.height ≤ children.height := Forest.height_of_node hfound
          rw [List.length_singleton] at hbelow
          omega
        · -- the component itself is configured as before
          intro above habovene hpre hdiffers
          rcases List.prefix_concat_iff.mp hpre with heq | hshorter
          · exact absurd heq hdiffers
          · by_cases heq : above = address
            · rw [heq, wanted, value_of_node hrunning, value_of_node hconfig]
              simpa using hsame
            · exact habove above habovene hshorter heq

end Planned

section Apply

variable {running : Running κ} {config : Forest String κ}

theorem apply_isSome (hacyclic : Acyclic running config) : (applyActions running config).isSome := by
  refine Closure.gather_isSome fun name _ => pending_isSome hacyclic (by simp) (by omega) (fun found hfound => ?_) ?_
  · have hbelow := Forest.height_of_node hfound
    rw [List.length_singleton] at hbelow
    omega
  · intro above hne hpre hdiffers
    rcases List.prefix_concat_iff.mp (show above <+: [] ++ [name] from hpre) with heq | hnil
    · exact absurd heq hdiffers
    · exact absurd (List.prefix_nil.mp hnil) hne

theorem apply_planned {actions : List Action} (h : applyActions running config = some actions) :
    ∀ action ∈ actions, Planned running config action := by
  intro action haction
  obtain ⟨name, -, found, hfound, haction⟩ := ((Closure.gather_eq_some h).2 action).mp haction
  exact pending_planned hfound (by simp) (.inl rfl) action haction

theorem apply_covers {actions : List Action} (h : applyActions running config = some actions) {path : Address}
    (hdiffers : running.components.value path ≠ wanted config path) :
    ∃ action ∈ actions, Effective config action ∧ action.address <+: path := by
  cases path with
  | nil => exact absurd rfl hdiffers
  | cons name path =>
    have htop : [name] <+: name :: path := by simp
    by_cases hname : name ∈ running.components.names ++ config.names
    · obtain ⟨hall, hmem⟩ := Closure.gather_eq_some h
      obtain ⟨found, hfound⟩ := hall name (List.mem_eraseDups.mpr hname)
      obtain ⟨action, haction, heffective⟩ := pending_covers hfound (by simp) htop hdiffers
      exact ⟨action, (hmem action).mpr ⟨name, List.mem_eraseDups.mpr hname, found, hfound, haction⟩, heffective⟩
    · rw [List.mem_append, not_or, Forest.mem_names, Forest.mem_names] at hname
      have hrunning : running.components.value [name] = none := by
        rw [Forest.value_singleton]
        simpa using hname.1
      have hwanted : wanted config [name] = none := by
        rw [wanted, Forest.value_singleton]
        simpa using hname.2
      rw [Forest.value_below (by simp) hrunning htop, wanted_below (by simp) hwanted htop] at hdiffers
      exact absurd rfl hdiffers

end Apply

/-! ## 4. What an action does -/

section Execute

variable {config : Forest String κ} {state : State κ}

variable {address : Address}

theorem dropLast_concat_getLastD (hne : address ≠ []) : address.dropLast ++ [address.getLastD ""] = address := by
  rw [List.getLastD_eq_getLast?, List.getLast?_eq_some_getLast hne]
  exact List.dropLast_append_getLast hne

theorem drop_dropLast (hne : address ≠ []) (more : Address) :
    (address ++ more).drop address.dropLast.length = address.getLastD "" :: more := by
  conv_lhs => rw [← dropLast_concat_getLastD hne]
  rw [List.dropLast_concat, List.append_assoc, List.drop_left]
  rfl

theorem container_eq (hparent : address.dropLast = [] ∨ (state.value address.dropLast).isSome) :
    container state address = address.dropLast := by
  unfold container
  rcases hparent with hnil | hsome
  · rw [hnil, Forest.value_nil]
    rfl
  · rw [if_pos hsome]

variable {entry : κ × Forest String κ}

theorem value_entry {address path : Address} (hne : address ≠ []) (hentry : config.node address = some entry)
    (hpath : address <+: path) : Forest.value (path.drop address.dropLast.length)
      (.cons (address.getLastD "") (some entry.1) (entry.2.map some) .nil) = wanted config path := by
  obtain ⟨more, rfl⟩ := hpath
  rw [drop_dropLast hne, Forest.value_cons, Forest.find, if_pos rfl, Option.bind_some, wanted]
  by_cases hmore : more = []
  · rw [if_pos hmore, hmore, List.append_nil, value_of_node hentry]
    rfl
  · rw [if_neg hmore, Forest.value_map, Forest.value_append hne hmore, hentry, Option.bind_some]

/-- **A creation with its parent there** changes what is at the address and below, to nothing or to what is
    wanted; and to what is wanted, if it succeeds. -/
theorem create_spec (hne : address ≠ []) (hentry : config.node address = some entry)
    (hparent : address.dropLast = [] ∨ (state.value address.dropLast).isSome)
    (hnone : state.value address = none) (outcome : Outcome) (path : Address) : (¬ address <+: path →
      (create entry address.dropLast (address.getLastD "") state outcome).value path = state.value path) ∧
    (address <+: path → (create entry address.dropLast (address.getLastD "") state outcome).value path = none ∨
      (create entry address.dropLast (address.getLastD "") state outcome).value path = wanted config path) ∧
    (outcome = .created → address <+: path →
      (create entry address.dropLast (address.getLastD "") state outcome).value path = wanted config path) := by
  have hplace := dropLast_concat_getLastD hne
  have herased : ∀ other, (state.erase address).value other = state.value other := by
    intro other
    rw [Forest.value_erase hne]
    split
    · next hpre => exact (Forest.value_below hne hnone hpre).symm
    · rfl
  have hattached : ∀ children, (Forest.attach (.cons (address.getLastD "") (some entry.1) children .nil)
      address.dropLast (state.erase address)).value path =
        if address <+: path then Forest.value (path.drop address.dropLast.length)
          (.cons (address.getLastD "") (some entry.1) children .nil)
        else state.value path := by
    intro children
    have hparent' : address.dropLast = [] ∨ ((state.erase address).value address.dropLast).isSome := by
      rw [herased]
      exact hparent
    have hnone' : (state.erase address).value (address.dropLast ++ [address.getLastD ""]) = none := by
      rw [hplace, herased]
      exact hnone
    rw [Forest.value_attach hparent' hnone', hplace, herased]
  cases outcome with
  | created =>
    rw [create, hplace, hattached]
    refine ⟨fun h => if_neg h, fun h => .inr ?_, fun _ h => ?_⟩
    · rw [if_pos h, value_entry hne hentry h]
    · rw [if_pos h, value_entry hne hentry h]
  | refused =>
    refine ⟨fun _ => rfl, fun h => .inl (Forest.value_below hne hnone h), fun h => absurd h (by decide)⟩
  | withdrawn =>
    rw [create, hplace, herased]
    refine ⟨fun _ => rfl, fun h => .inl (Forest.value_below hne hnone h), fun h => absurd h (by decide)⟩
  | left =>
    rw [create, hplace, hattached]
    refine ⟨fun h => if_neg h, fun h => ?_, fun h => absurd h (by decide)⟩
    rw [if_pos h]
    obtain ⟨more, rfl⟩ := h
    cases more with
    | nil =>
      right
      rw [← value_entry hne hentry (List.prefix_append address []), drop_dropLast hne, Forest.value_singleton,
        Forest.value_singleton]
      simp only [Forest.find, if_true, Option.map_some]
    | cons name more =>
      left
      rw [drop_dropLast hne, Forest.value_cons, Forest.find, if_pos rfl, Option.bind_some, if_neg (by simp)]
      rfl

variable {running : Running κ}

theorem not_prefix_dropLast (hne : address ≠ []) : ¬ address <+: address.dropLast := by
  intro h
  have hlength := h.length_le
  rw [List.length_dropLast] at hlength
  have hpos := List.length_pos_of_ne_nil hne
  omega

theorem node_of_wanted (h : (wanted config address).isSome) : ∃ entry, config.node address = some entry := by
  unfold wanted Forest.value at h
  rw [Option.isSome_map, Option.isSome_map] at h
  exact Option.isSome_iff_exists.mp h

theorem wanted_of_node (h : config.node address = some entry) : (wanted config address).isSome := by
  rw [wanted, value_of_node h]
  rfl

/-- An action that leaves what is at a path: it is about another place, has no entry, or finds the component
    there. -/
def Leaves (config : Forest String κ) (state : State κ) (action : Action) (path : Address) : Prop :=
  ¬ action.address <+: path ∨ ¬ Effective config action ∨
    ∃ address, action = .create address ∧ (state.value address).isSome

/-- **What one action does**, with its parent there. -/
theorem execute_spec {action : Action} {outcome : Outcome} (hplanned : Planned running config action)
    (hsheltered : Sheltered config state (action, outcome)) (path : Address) :
    ((execute config state outcome action).value path = state.value path ∧ Leaves config state action path) ∨
    (Effective config action ∧ action.address <+: path ∧
      ((execute config state outcome action).value path = none ∨
        (execute config state outcome action).value path = wanted config path) ∧
      (outcome = .created → (execute config state outcome action).value path = wanted config path)) := by
  cases action with
  | create address =>
    obtain ⟨hne, -, hwanted, -⟩ := hplanned
    obtain ⟨entry, hentry⟩ := node_of_wanted hwanted
    simp only [execute, hentry]
    by_cases hthere : (state.value address).isSome
    · rw [if_pos hthere]
      exact .inl ⟨rfl, .inr (.inr ⟨address, rfl, hthere⟩)⟩
    · have hvalue : (config.value address).isSome := by
        rw [value_of_node hentry]
        rfl
      have hparent := hsheltered hvalue hthere
      have hnone : state.value address = none := by simpa using hthere
      obtain ⟨houtside, hbelow, hcreated⟩ := create_spec hne hentry hparent hnone outcome path
      rw [if_neg hthere, container_eq hparent]
      by_cases hpath : address <+: path
      · exact .inr ⟨hwanted, hpath, hbelow hpath, fun h => hcreated h hpath⟩
      · exact .inl ⟨houtside hpath, .inl hpath⟩
  | recreate address =>
    obtain ⟨hne, -⟩ := hplanned
    cases hentry : config.node address with
    | none =>
      refine .inl ⟨by simp only [execute, hentry], .inr (.inl ?_)⟩
      rw [Effective, wanted, value_of_node_none hentry]
      simp
    | some entry =>
      have hvalue : (config.value address).isSome := by
        rw [value_of_node hentry]
        rfl
      have hparent := hsheltered hvalue
      have herased : address.dropLast = [] ∨ ((state.erase address).value address.dropLast).isSome := by
        rw [Forest.value_erase hne, if_neg (not_prefix_dropLast hne)]
        exact hparent
      have hnone : (state.erase address).value address = none := by
        rw [Forest.value_erase hne, if_pos (List.prefix_refl address)]
      obtain ⟨houtside, hbelow, hcreated⟩ := create_spec hne hentry herased hnone outcome path
      simp only [execute, hentry]
      rw [container_eq hparent]
      by_cases hpath : address <+: path
      · exact .inr ⟨wanted_of_node hentry, hpath, hbelow hpath, fun h => hcreated h hpath⟩
      · refine .inl ⟨?_, .inl hpath⟩
        rw [houtside hpath, Forest.value_erase hne, if_neg hpath]
  | remove address =>
    obtain ⟨hne, hwanted⟩ := hplanned
    rw [execute, Forest.value_erase hne]
    by_cases hpath : address <+: path
    · rw [if_pos hpath]
      exact .inr ⟨trivial, hpath, .inl rfl, fun _ => (wanted_below hne hwanted hpath).symm⟩
    · rw [if_neg hpath]
      exact .inl ⟨rfl, .inl hpath⟩

end Execute

/-! ## 5. Whatever fails -/

section Runs

variable {running : Running κ} {config : Forest String κ}

/-- **What is there after some of the actions**: nothing, what is wanted, or what was there, where no action
    was about it. -/
def Settled (running : Running κ) (config : Forest String κ) (done : List Action) (state : State κ) : Prop :=
  ∀ path, (state.value path = none ∨ state.value path = wanted config path) ∨
    (state.value path = running.components.value path ∧
      ∀ action ∈ done, Effective config action → ¬ action.address <+: path)

variable {done : List Action} {state : State κ}

theorem settled_step {action : Action} {outcome : Outcome} (hplanned : Planned running config action)
    (hsheltered : Sheltered config state (action, outcome)) (h : Settled running config done state) :
    Settled running config (done ++ [action]) (execute config state outcome action) := by
  intro path
  rcases execute_spec hplanned hsheltered path with ⟨hsame, hleaves⟩ | ⟨-, -, hvalue, -⟩
  · rw [hsame]
    rcases h path with hvalue | ⟨hvalue, hdone⟩
    · exact .inl hvalue
    · by_cases habout : Effective config action ∧ action.address <+: path
      · -- a component that is found was not there at first, nor was anything below it
        obtain ⟨address, rfl, -⟩ := (hleaves.resolve_left (not_not.mpr habout.2)).resolve_left
          (not_not.mpr habout.1)
        obtain ⟨hne, habsent, -, -⟩ := hplanned
        exact .inl (.inl (hvalue.trans (Forest.value_below hne habsent habout.2)))
      · refine .inr ⟨hvalue, fun earlier hearlier heffective => ?_⟩
        rcases List.mem_append.mp hearlier with hearlier | hearlier
        · exact hdone earlier hearlier heffective
        · rw [List.mem_singleton.mp hearlier] at heffective ⊢
          exact fun hpath => habout ⟨heffective, hpath⟩
  · exact .inl hvalue

theorem run_settled (turns : List (Action × Outcome))
    (hplanned : ∀ turn ∈ turns, Planned running config turn.1) (h : Settled running config done state)
    (hsheltered : Along (step config) (Sheltered config) state turns) :
    ∃ final, run (step config) state turns = some final ∧
      Settled running config (done ++ turns.map Prod.fst) final := by
  induction turns generalizing done state with
  | nil => exact ⟨state, rfl, by simpa using h⟩
  | cons turn turns ih =>
    have hstep := settled_step (hplanned turn List.mem_cons_self) hsheltered.1 h
    obtain ⟨final, hrun, hfinal⟩ := ih (fun other hother => hplanned other (List.mem_cons_of_mem _ hother)) hstep
      (hsheltered.2 _ rfl)
    refine ⟨final, hrun, ?_⟩
    rw [List.map_cons]
    rwa [List.append_assoc] at hfinal

/-! ## 6. When all succeed -/

/-- **What is there after creations that all succeeded**: what is wanted, where an action was about it. -/
def Reached (running : Running κ) (config : Forest String κ) (done : List Action) (state : State κ) : Prop :=
  ∀ path, ((∃ action ∈ done, Effective config action ∧ action.address <+: path) →
      state.value path = wanted config path) ∧
    ((∀ action ∈ done, Effective config action → ¬ action.address <+: path) →
      state.value path = running.components.value path)

theorem Reached.cases (h : Reached running config done state)
    (path : Address) : ((∃ action ∈ done, Effective config action ∧ action.address <+: path) ∧
        state.value path = wanted config path) ∨
      ((∀ action ∈ done, Effective config action → ¬ action.address <+: path) ∧
        state.value path = running.components.value path) := by
  by_cases hdone : ∃ action ∈ done, Effective config action ∧ action.address <+: path
  · exact .inl ⟨hdone, (h path).1 hdone⟩
  · have hnone : ∀ action ∈ done, Effective config action → ¬ action.address <+: path :=
      fun action haction heffective hpath => hdone ⟨action, haction, heffective, hpath⟩
    exact .inr ⟨hnone, (h path).2 hnone⟩

theorem Reached.parent (h : Reached running config done state) {address : Address}
    (hwanted : (wanted config address).isSome)
    (hrunning : address.dropLast = [] ∨ (running.components.value address.dropLast).isSome) :
    address.dropLast = [] ∨ (state.value address.dropLast).isSome := by
  by_cases hnil : address.dropLast = []
  · exact .inl hnil
  · right
    rcases h.cases address.dropLast with ⟨-, hvalue⟩ | ⟨-, hvalue⟩
    · rw [hvalue, Option.isSome_iff_ne_none]
      intro hnone
      rw [wanted_below hnil hnone (List.dropLast_prefix address)] at hwanted
      exact absurd hwanted (by simp)
    · rw [hvalue]
      exact hrunning.resolve_left hnil

theorem running_dropLast {address : Address} (h : (running.components.value address).isSome) :
    address.dropLast = [] ∨ (running.components.value address.dropLast).isSome := by
  by_cases hnil : address.dropLast = []
  · exact .inl hnil
  · right
    rw [Option.isSome_iff_ne_none]
    intro hnone
    rw [Forest.value_below hnil hnone (List.dropLast_prefix address)] at h
    exact absurd h (by simp)

theorem Reached.sheltered (h : Reached running config done state) {action : Action}
    (hplanned : Planned running config action) (outcome : Outcome) :
    Sheltered config state (action, outcome) := by
  cases action with
  | create address =>
    intro _ _
    exact h.parent hplanned.2.2.1 hplanned.2.2.2
  | recreate address =>
    intro hvalue
    refine h.parent ?_ (running_dropLast hplanned.2)
    rw [wanted, Option.isSome_map]
    exact hvalue
  | remove address => trivial

theorem Reached.step (h : Reached running config done state) {action : Action}
    (hplanned : Planned running config action) :
    Reached running config (done ++ [action]) (execute config state .created action) := by
  intro path
  have hspec := execute_spec hplanned (h.sheltered hplanned .created) path
  constructor
  · intro ⟨earlier, hearlier, heffective, hpath⟩
    rcases hspec with ⟨hsame, hleaves⟩ | ⟨-, -, -, hcreated⟩
    · rw [hsame]
      rcases List.mem_append.mp hearlier with hearlier | hearlier
      · exact (h path).1 ⟨earlier, hearlier, heffective, hpath⟩
      · rw [List.mem_singleton.mp hearlier] at heffective hpath
        rcases hleaves with hother | hnone | ⟨address, rfl, hthere⟩
        · exact absurd hpath hother
        · exact absurd heffective hnone
        · -- an earlier action has created the component, with all that is below it
          rcases h.cases address with ⟨⟨cause, hcause, hcausal, habove⟩, -⟩ | ⟨-, hvalue⟩
          · exact (h path).1 ⟨cause, hcause, hcausal, habove.trans hpath⟩
          · rw [hvalue, hplanned.2.1] at hthere
            exact absurd hthere (by simp)
    · exact hcreated rfl
  · intro hnone
    rcases hspec with ⟨hsame, -⟩ | ⟨heffective, hpath, -, -⟩
    · rw [hsame]
      exact (h path).2 fun earlier hearlier => hnone earlier (List.mem_append_left _ hearlier)
    · exact absurd hpath (hnone action (List.mem_append_right _ List.mem_cons_self) heffective)

theorem run_reached (actions : List Action) (hplanned : ∀ action ∈ actions, Planned running config action)
    (h : Reached running config done state) :
    ∃ final, run (step config) state (actions.map fun action => (action, .created)) = some final ∧
      Reached running config (done ++ actions) final := by
  induction actions generalizing done state with
  | nil => exact ⟨state, rfl, by simpa using h⟩
  | cons action actions ih =>
    have hstep := h.step (hplanned action List.mem_cons_self)
    obtain ⟨final, hrun, hfinal⟩ := ih (fun other hother => hplanned other (List.mem_cons_of_mem _ hother)) hstep
    exact ⟨final, hrun, by rwa [List.append_assoc] at hfinal⟩

/-- **Reconciliation reaches the configuration**, where no cycle of references keeps the actions from being
    found: when every creation succeeds the components and their configurations are those it names; and
    whatever fails, so long as no creation lacks its parent, every component that is there afterwards is one
    it names, configured as it says. -/
theorem reconciled (running : Running κ) (config : Forest String κ) (hacyclic : Acyclic running config) :
    ∃ actions, applyActions running config = some actions ∧
      (∃ final, run (step config) running.components (actions.map fun action => (action, .created)) =
          some final ∧ ∀ path, final.value path = wanted config path) ∧
      ∀ turns : List (Action × Outcome), turns.map Prod.fst = actions →
        Along (step config) (Sheltered config) running.components turns →
        ∃ final, run (step config) running.components turns = some final ∧
          ∀ path own, final.value path = some own → wanted config path = some own := by
  obtain ⟨actions, happly⟩ := Option.isSome_iff_exists.mp (apply_isSome hacyclic)
  have hplanned := apply_planned happly
  refine ⟨actions, happly, ?_, fun turns hturns hsheltered => ?_⟩
  · have hinitial : Reached running config [] running.components :=
      fun path => ⟨fun ⟨action, haction, _⟩ => absurd haction List.not_mem_nil, fun _ => rfl⟩
    obtain ⟨final, hrun, hfinal⟩ := run_reached actions hplanned hinitial
    refine ⟨final, hrun, fun path => ?_⟩
    rcases hfinal.cases path with ⟨-, hvalue⟩ | ⟨hnone, hvalue⟩
    · exact hvalue
    · rw [hvalue]
      by_contra hdiffers
      obtain ⟨action, haction, heffective, hpath⟩ := apply_covers happly hdiffers
      exact hnone action haction heffective hpath
  · have hinitial : Settled running config [] running.components :=
      fun path => .inr ⟨rfl, fun action haction => absurd haction List.not_mem_nil⟩
    have hall : ∀ turn ∈ turns, Planned running config turn.1 :=
      fun turn hturn => hplanned _ (hturns ▸ List.mem_map_of_mem hturn)
    obtain ⟨final, hrun, hfinal⟩ := run_settled turns hall hinitial hsheltered
    refine ⟨final, hrun, fun path own hown => ?_⟩
    rcases hfinal path with (hvalue | hvalue) | ⟨hvalue, hnone⟩
    · rw [hvalue] at hown
      exact absurd hown (by simp)
    · rw [← hvalue]
      exact hown
    · have hsame : running.components.value path = wanted config path := by
        by_contra hdiffers
        obtain ⟨action, haction, heffective, hpath⟩ := apply_covers happly hdiffers
        exact hnone action (by rwa [List.nil_append, hturns]) heffective hpath
      rw [← hsame, ← hvalue]
      exact hown

end Runs

/-! ## 7. A parent that could not be recreated -/

namespace Sample

/-- Component `c`, and `a` with its child `b`, which both refer to `c`. -/
def components (c : Nat) : Forest String Nat := .cons "c" c .nil (.cons "a" 0 (.cons "b" 0 .nil .nil) .nil)

def running : Running Nat where
  components := (components 0).map some
  referencers := fun address => if address = ["c"] then [["a"], ["a", "b"]] else []
  closed := by
    intro address referencer h
    split at h
    · revert referencer
      decide
    · exact absurd h List.not_mem_nil

def config : Forest String Nat := components 1

theorem acyclic : Acyclic running config := by
  intro address _ other _
  refine @Closure.not_reaches_self Address running.referencers (fun address => if address = ["c"] then 0 else 1)
    (fun above below h => ?_) other
  unfold running at h
  simp only at h
  split at h
  · next habove =>
    subst habove
    revert below
    decide
  · exact absurd h List.not_mem_nil

def turns : List (Action × Outcome) :=
  [(.recreate ["c"], .created), (.recreate ["a"], .refused), (.recreate ["a", "b"], .created)]

end Sample

/-- The child of the component that could not be recreated becomes one of the engine's own. -/
theorem orphan_at_the_top :
    Acyclic Sample.running Sample.config ∧
    applyActions Sample.running Sample.config = some (Sample.turns.map Prod.fst) ∧
    ∃ final, run (step Sample.config) Sample.running.components Sample.turns = some final ∧
      final.value ["b"] = some (some 0) ∧ wanted Sample.config ["b"] = none := by
  exact ⟨Sample.acyclic, by decide, _, rfl, by decide, by decide⟩

theorem sample_reconciled : ∃ actions, applyActions Sample.running Sample.config = some actions ∧
    ∃ final, run (step Sample.config) Sample.running.components (actions.map fun action => (action, .created)) =
      some final ∧ final.value ["c"] = some (some 1) ∧ final.value ["a", "b"] = some (some 0) := by
  obtain ⟨actions, happly, ⟨final, hrun, hfinal⟩, -⟩ :=
    reconciled Sample.running Sample.config Sample.acyclic
  refine ⟨actions, happly, final, hrun, ?_, ?_⟩
  · rw [hfinal]
    decide
  · rw [hfinal]
    decide

end Ceres.Component.Reconcile
