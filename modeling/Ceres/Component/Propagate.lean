/-
  File:      Ceres/Component/Propagate.lean
  Subject:   WHO HANDLES AN EVENT (`event.py`: `EventManager.propagate`; `component.py`: `get_components`,
             `get_referencing_components`).

  An event goes up to the topmost container, an engine or a system without one. From there it is handled by
  every system beneath, and by the systems that refer to one of these. An engine is a node of the tree like
  any other here, and nothing refers to it. Logging is left out.

  * `propagate` -- the streams an event is put on and the systems that handle it, in order;
  * `Interested` -- the systems of the tree, and those that refer to one of them, however indirectly;
  * `mem_deliver`, `nodup_deliver` -- who handles the event, and that none does twice;
  * **`every_interested_once_iff`** -- when every interested system handles the event once and no other does.
-/
import Ceres.Component.References

namespace Ceres.Component.Propagate

open Ceres.Library Ceres.Library.Ascent
open References (mem_beneath)

set_option linter.unusedSectionVars false

variable {ι : Type} [DecidableEq ι] [Fintype ι]

/-! ## 1. The event manager -/

/-- The nodes, the components that each refers to, and the ones that each keeps as its referencers. -/
structure Systems (ι : Type) where
  tree : Tree ι
  referenced : ι → List ι
  referencers : ι → List ι

/-- The nodes whose streams the event is put on, and the ones whose `handle` is called. -/
structure Propagation (ι : Type) where
  put : List ι
  handled : List ι
  deriving DecidableEq

/-- Whoever has handled the event is in `seen`. -/
def handleUnseen (seen : List ι) (system : ι) : List ι := if system ∈ seen then seen else seen ++ [system]

namespace Systems

variable (s : Systems ι)

/-- A turn of the loop, for a component of the tree and its referencers. -/
def visit (seen : List ι) (component : ι) : List ι :=
  (s.referencers component).foldl handleUnseen (handleUnseen seen component)

/-- The nodes that handle the event, from the topmost container down. -/
def deliver (top : ι) : List ι := (s.tree.beneath (Fintype.card ι) top).foldl s.visit [top]

/-- `propagate`; `none` is a `RecursionError`. -/
def propagate : Nat → ι → Option (Propagation ι)
  | 0, _ => none
  | depth + 1, node =>
    match s.tree.container node with
    | some container => (propagate depth container).map fun p => { p with put := node :: p.put }
    | none => some ⟨[node], s.deliver node⟩

end Systems

/-! ## 2. Who is meant -/

/-- The node is the top or beneath it. -/
def InTree (t : Tree ι) (top node : ι) : Prop := node = top ∨ Above t.container top node

/-- The node refers to another, directly or through others. -/
def Depends (s : Systems ι) : ι → ι → Prop := Relation.TransGen fun node other => other ∈ s.referenced node

/-- **The systems of a tree, and those that refer to one of them.** -/
def Interested (s : Systems ι) (top node : ι) : Prop :=
  InTree s.tree top node ∨ ∃ other, InTree s.tree top other ∧ Depends s node other

/-- The nodes form trees, and each keeps exactly the ones that refer to it. -/
structure Exact (s : Systems ι) : Prop where
  tree : WellFormed s.tree
  referencers : ∀ node other, other ∈ s.referencers node ↔ node ∈ s.referenced other

/-- **Every interested node handles the event once, and no other handles it.** -/
def HandledOnce (s : Systems ι) (node : ι) : Prop :=
  ∃ p, s.propagate (Fintype.card ι) node = some p ∧
    ∀ other, (Interested s (s.tree.root node) other → p.handled.count other = 1) ∧
      (¬ Interested s (s.tree.root node) other → p.handled.count other = 0)

/-! ## 3. Who handles the event -/

theorem mem_handleUnseen {seen : List ι} {system node : ι} :
    node ∈ handleUnseen seen system ↔ node ∈ seen ∨ node = system := by
  unfold handleUnseen
  by_cases h : system ∈ seen
  · rw [if_pos h]
    refine ⟨.inl, fun hor => hor.elim id ?_⟩
    rintro rfl
    exact h
  · rw [if_neg h, List.mem_append, List.mem_singleton]

theorem nodup_handleUnseen {seen : List ι} (h : seen.Nodup) (system : ι) : (handleUnseen seen system).Nodup := by
  unfold handleUnseen
  by_cases hmem : system ∈ seen
  · rw [if_pos hmem]
    exact h
  · rw [if_neg hmem]
    exact List.nodup_append.mpr ⟨h, List.nodup_singleton system, by
      rintro other hother _ hlast rfl
      exact hmem (List.mem_singleton.mp hlast ▸ hother)⟩

theorem mem_foldl_handleUnseen {systems seen : List ι} {node : ι} :
    node ∈ systems.foldl handleUnseen seen ↔ node ∈ seen ∨ node ∈ systems := by
  induction systems generalizing seen with
  | nil => simp
  | cons system systems ih => rw [List.foldl_cons, ih, mem_handleUnseen, List.mem_cons, or_assoc]

theorem nodup_foldl_handleUnseen {systems seen : List ι} (h : seen.Nodup) :
    (systems.foldl handleUnseen seen).Nodup := by
  induction systems generalizing seen with
  | nil => exact h
  | cons system systems ih => exact ih (nodup_handleUnseen h system)

section Deliver

variable (s : Systems ι)

theorem mem_visit {seen : List ι} {component node : ι} :
    node ∈ s.visit seen component ↔ node ∈ seen ∨ node = component ∨ node ∈ s.referencers component := by
  rw [Systems.visit, mem_foldl_handleUnseen, mem_handleUnseen, or_assoc]

theorem nodup_visit {seen : List ι} (h : seen.Nodup) (component : ι) : (s.visit seen component).Nodup :=
  nodup_foldl_handleUnseen (nodup_handleUnseen h component)

theorem mem_foldl_visit {components seen : List ι} {node : ι} : node ∈ components.foldl s.visit seen ↔
      node ∈ seen ∨ ∃ component ∈ components, node = component ∨ node ∈ s.referencers component := by
  induction components generalizing seen with
  | nil => simp
  | cons component components ih => rw [List.foldl_cons, ih, mem_visit, List.exists_mem_cons_iff, or_assoc]

/-- **None handles an event twice.** -/
theorem nodup_deliver (top : ι) : (s.deliver top).Nodup := by
  have hfold : ∀ (components seen : List ι), seen.Nodup → (components.foldl s.visit seen).Nodup := by
    intro components
    induction components with
    | nil => exact fun _ h => h
    | cons component components ih => exact fun seen h => ih _ (nodup_visit s h component)
  exact hfold _ _ (List.nodup_singleton top)

variable {s}

theorem above_of_mem_beneath {t : Tree ι} (h : WellFormed t) {node : ι} : ∀ {n : Nat} {top : ι},
    node ∈ t.beneath n top → Above t.container top node
  | 0, _, hmem => nomatch hmem
  | n + 1, top, hmem => by
      obtain ⟨child, hchild, hmem⟩ := List.mem_flatMap.mp hmem
      obtain ⟨⟨name, same⟩, hentry, rfl⟩ := List.mem_map.mp hchild
      have hcontainer := ((h.registered top name same).mp hentry).1
      rcases List.mem_cons.mp hmem with rfl | hmem
      · exact .single hcontainer
      · exact .tail (above_of_mem_beneath h hmem) hcontainer

/-- **The walk down meets what is beneath.** -/
theorem mem_beneath_iff {t : Tree ι} (h : WellFormed t) {top node : ι} :
    node ∈ t.beneath (Fintype.card ι) top ↔ Above t.container top node := by
  refine ⟨above_of_mem_beneath h, fun habove => ?_⟩
  obtain ⟨l, hl⟩ := h.ends node
  have hlength := hl.length_lt
  obtain ⟨l₁, l₂, rfl⟩ := List.append_of_mem (hl.mem_iff.mpr habove)
  refine mem_beneath h hl (Nat.lt_of_le_of_lt ?_ hlength)
  simp

/-- **Who handles the event**: the top, the systems beneath it, and the ones that refer to one of these. -/
theorem mem_deliver (h : Exact s) {top node : ι} : node ∈ s.deliver top ↔
      InTree s.tree top node ∨ ∃ other, Above s.tree.container top other ∧ other ∈ s.referenced node := by
  rw [Systems.deliver, mem_foldl_visit, List.mem_singleton, InTree, or_assoc]
  refine or_congr_right ?_
  constructor
  · intro hmem
    obtain ⟨component, hcomponent, hor⟩ := hmem
    have habove := (mem_beneath_iff h.tree).mp hcomponent
    rcases hor with rfl | hreferencer
    · exact .inl habove
    · exact .inr ⟨component, habove, (h.referencers component node).mp hreferencer⟩
  · intro hor
    rcases hor with habove | ⟨other, habove, hreferenced⟩
    · exact ⟨node, (mem_beneath_iff h.tree).mpr habove, .inl rfl⟩
    · exact ⟨other, (mem_beneath_iff h.tree).mpr habove, .inr ((h.referencers other node).mpr hreferenced)⟩

theorem propagate_of_chain {l : List ι} {node : ι} (hl : Chain s.tree.container node l) {depth : Nat}
    (hdepth : l.length < depth) : s.propagate depth node = some ⟨node :: l, s.deliver (l.getLastD node)⟩ := by
  obtain ⟨depth, rfl⟩ := Nat.exists_eq_succ_of_ne_zero (Nat.ne_of_gt (Nat.lt_of_le_of_lt (Nat.zero_le _) hdepth))
  induction l generalizing node depth with
  | nil =>
    have hnone : s.tree.container node = none := hl
    simp only [Systems.propagate, hnone, List.getLastD_nil]
  | cons container l ih =>
    rw [List.length_cons] at hdepth
    obtain ⟨depth, rfl⟩ : ∃ n, depth = n + 1 := Nat.exists_eq_succ_of_ne_zero (by omega)
    have habove := ih hl.2 depth (by omega)
    rw [Systems.propagate]
    simp only [hl.1, habove, Option.map_some, List.getLastD_cons]

/-- **What propagating does.** -/
theorem propagate_eq (h : Exact s) (node : ι) :
    s.propagate (Fintype.card ι) node = some ⟨node :: s.tree.ancestors node, s.deliver (s.tree.root node)⟩ := by
  obtain ⟨l, hl⟩ := h.tree.ends node
  rw [propagate_of_chain hl hl.length_lt, Tree.root, Tree.ancestors, hl.follow_eq hl.length_lt.le]

end Deliver

/-! ## 4. Every interested system once -/

/-- **An event reaches every interested system once, and no other**, exactly if whoever depends on a system of
    the tree is in the tree, or refers directly to a system beneath its top. -/
theorem every_interested_once_iff (s : Systems ι) (h : Exact s) (node : ι) :
    HandledOnce s node ↔ ∀ dependent other, InTree s.tree (s.tree.root node) other → Depends s dependent other →
      InTree s.tree (s.tree.root node) dependent ∨
        ∃ direct, Above s.tree.container (s.tree.root node) direct ∧ direct ∈ s.referenced dependent := by
  have hcount : ∀ other, (s.deliver (s.tree.root node)).count other = 1 ↔ other ∈ s.deliver (s.tree.root node) := by
    intro other
    constructor
    · intro hone
      exact List.count_pos_iff.mp (by omega)
    · exact List.count_eq_one_of_mem (nodup_deliver s _)
  constructor
  · intro hhandled dependent other hother hdepends
    obtain ⟨p, hp, hall⟩ := hhandled
    rw [propagate_eq h] at hp
    cases hp
    have hone := (hall dependent).1 (.inr ⟨other, hother, hdepends⟩)
    exact (mem_deliver h).mp ((hcount dependent).mp hone)
  · intro hdirect
    refine ⟨_, propagate_eq h node, fun other => ⟨fun hinterested => ?_, fun hnot => ?_⟩⟩
    · refine (hcount other).mpr ((mem_deliver h).mpr ?_)
      rcases hinterested with hin | ⟨target, htarget, hdepends⟩
      · exact .inl hin
      · exact hdirect other target htarget hdepends
    · refine List.count_eq_zero.mpr fun hmem => hnot ?_
      rcases (mem_deliver h).mp hmem with hin | ⟨target, habove, hreferenced⟩
      · exact .inl hin
      · exact .inr ⟨target, .inr habove, .single hreferenced⟩

namespace Sample

/-- A rig with a pump, and two components outside. -/
inductive Part where
  | rig
  | pump
  | monitor
  | panel
  deriving DecidableEq

instance : Fintype Part := ⟨{.rig, .pump, .monitor, .panel}, fun part => by cases part <;> decide⟩

/-- The monitor refers to the pump. -/
def refers (panel : List Part) : Part → List Part
  | .monitor => [.pump]
  | .panel => panel
  | _ => []

def systems (panel : List Part) : Systems Part where
  tree := (Tree.detached fun _ => "rig").link .rig .pump "pump"
  referenced := refers panel
  referencers := fun node => [Part.rig, .pump, .monitor, .panel].filter fun other => node ∈ refers panel other

theorem exact_systems (panel : List Part) : Exact (systems panel) := by
  refine ⟨(wellFormed_detached _).link rfl rfl (by decide) ?_, ?_⟩
  · intro habove
    obtain ⟨above, hstep, -⟩ := Relation.TransGen.head'_iff.mp habove
    cases hstep
  · intro node other
    cases other <;> simp [systems]

theorem above_pump (panel : List Part) : Above (systems panel).tree.container .rig .pump := .single rfl

theorem depends_cases {dependent other : Part} (h : Depends (systems []) dependent other) :
    dependent = .monitor ∧ other = .pump := by
  have hstep : ∀ node target : Part, target ∈ refers [] node → node = .monitor ∧ target = .pump := by decide
  induction h with
  | single hrefers => exact hstep _ _ hrefers
  | tail _ hrefers ih =>
    rw [ih.2] at hrefers
    exact absurd (hstep .pump _ hrefers).1 (by decide)

end Sample

/-- The monitor hears of the pump. -/
theorem monitor_hears : HandledOnce (Sample.systems []) .pump := by
  refine (every_interested_once_iff (Sample.systems []) (Sample.exact_systems []) .pump).mpr ?_
  intro dependent other _ hdepends
  obtain ⟨rfl, rfl⟩ := Sample.depends_cases hdepends
  exact .inr ⟨.pump, Sample.above_pump [], List.mem_singleton_self _⟩

/-- A panel that refers to the monitor does not. -/
theorem panel_misses : Exact (Sample.systems [.monitor]) ∧ ¬ HandledOnce (Sample.systems [.monitor]) .pump := by
  refine ⟨Sample.exact_systems [.monitor], ?_⟩
  intro h
  obtain ⟨p, hp, hall⟩ := h
  have hmonitor : Sample.Part.monitor ∈ (Sample.systems [.monitor]).referenced .panel := List.mem_singleton_self _
  have hpump : Sample.Part.pump ∈ (Sample.systems [.monitor]).referenced .monitor := List.mem_singleton_self _
  have hpanel : Depends (Sample.systems [.monitor]) .panel .pump := .head hmonitor (.single hpump)
  have hone := (hall .panel).1 (.inr ⟨.pump, .inr (Sample.above_pump [.monitor]), hpanel⟩)
  have hresult : (Sample.systems [.monitor]).propagate (Fintype.card Sample.Part) .pump =
      some ⟨[.pump, .rig], [.rig, .pump, .monitor]⟩ := by decide
  rw [hresult] at hp
  cases hp
  exact absurd hone (by decide)

end Ceres.Component.Propagate
