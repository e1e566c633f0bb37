/-
  File:      Ceres/Library/Forest.lean
  Subject:   ORDERED FORESTS OF NAMED NODES, read by paths of names.

  A path is a list of names from the top. Where a name occurs twice among siblings the first counts.

  * `find`, `node`, `value` -- what is under a name, and under a path;
  * `value_erase`, `value_attach`, `value_map` -- what the operations leave under every path;
  * `height`, `paths` -- how deep a forest is, and all its paths.
-/
import Mathlib.Data.List.Basic
import Mathlib.Order.Basic

namespace Ceres.Library

inductive Forest (ι ν : Type) where
  | nil
  | cons (name : ι) (value : ν) (children rest : Forest ι ν)

namespace Forest

variable {ι ν μ : Type} [DecidableEq ι]

/-! ## 1. Reading -/

def find (name : ι) : Forest ι ν → Option (ν × Forest ι ν)
  | nil => none
  | cons own value children rest => if own = name then some (value, children) else find name rest

/-- The node under a path, with its children. -/
def node : List ι → Forest ι ν → Option (ν × Forest ι ν)
  | [], _ => none
  | name :: path, forest =>
    (forest.find name).bind fun found => if path = [] then some found else node path found.2

def value (path : List ι) (forest : Forest ι ν) : Option ν := (node path forest).map Prod.fst

def names : Forest ι ν → List ι
  | nil => []
  | cons name _ _ rest => name :: names rest

@[simp] theorem value_nil (forest : Forest ι ν) : value [] forest = none := rfl

theorem value_cons (name : ι) (path : List ι) (forest : Forest ι ν) : value (name :: path) forest =
      (forest.find name).bind fun found => if path = [] then some found.1 else value path found.2 := by
  unfold value
  rw [node]
  cases forest.find name with
  | none => rfl
  | some found =>
    rw [Option.bind_some, Option.bind_some]
    split <;> rfl

theorem value_singleton (name : ι) (forest : Forest ι ν) :
    value [name] forest = (forest.find name).map Prod.fst := by
  rw [value_cons]
  cases forest.find name <;> rfl

theorem node_append {path more : List ι} (hpath : path ≠ []) (hmore : more ≠ []) (forest : Forest ι ν) :
    node (path ++ more) forest = (node path forest).bind fun found => node more found.2 := by
  induction path generalizing forest with
  | nil => exact absurd rfl hpath
  | cons name path ih =>
    have hne : path ++ more ≠ [] := fun h => hmore (List.append_eq_nil_iff.mp h).2
    rw [List.cons_append, node, node]
    simp only [if_neg hne]
    cases forest.find name with
    | none => rfl
    | some found =>
      simp only [Option.bind_some]
      by_cases hnil : path = []
      · rw [hnil, List.nil_append, if_pos rfl, Option.bind_some]
      · rw [if_neg hnil, ih hnil]

theorem value_append {path more : List ι} (hpath : path ≠ []) (hmore : more ≠ []) (forest : Forest ι ν) :
    value (path ++ more) forest = (node path forest).bind fun found => value more found.2 := by
  unfold value
  rw [node_append hpath hmore, Option.map_bind]
  rfl

variable {forest : Forest ι ν}

/-- **Nothing is below a path with nothing under it.** -/
theorem value_below {path below : List ι} (hpath : path ≠ []) (hnone : value path forest = none)
    (hbelow : path <+: below) : value below forest = none := by
  obtain ⟨more, rfl⟩ := hbelow
  by_cases hmore : more = []
  · rw [hmore, List.append_nil, hnone]
  · rw [value_append hpath hmore, Option.map_eq_none_iff.mp hnone, Option.bind_none]

theorem mem_names {name : ι} : name ∈ names forest ↔ (forest.find name).isSome := by
  induction forest with
  | nil => simp [names, find]
  | cons own value children rest _ ih =>
    rw [names, find, List.mem_cons, ih]
    by_cases hown : own = name
    · simp [hown]
    · simp [hown, Ne.symm hown]

/-! ## 2. Operations -/

def append : Forest ι ν → Forest ι ν → Forest ι ν
  | nil, other => other
  | cons name value children rest, other => cons name value children (append rest other)

/-- Without the nodes of one name. -/
def without (name : ι) : Forest ι ν → Forest ι ν
  | nil => nil
  | cons own value children rest =>
    if own = name then without name rest else cons own value children (without name rest)

/-- The children of the nodes of one name are changed. -/
def modify (name : ι) (change : Forest ι ν → Forest ι ν) : Forest ι ν → Forest ι ν
  | nil => nil
  | cons own value children rest =>
    cons own value (if own = name then change children else children) (modify name change rest)

/-- The subtree under a path is taken out. -/
def erase : List ι → Forest ι ν → Forest ι ν
  | [], forest => forest
  | name :: path, forest => if path = [] then forest.without name else forest.modify name (erase path)

/-- Trees are added after the children of the node under a path. -/
def attach (trees : Forest ι ν) : List ι → Forest ι ν → Forest ι ν
  | [], forest => forest.append trees
  | name :: path, forest => forest.modify name (attach trees path)

def map (f : ν → μ) : Forest ι ν → Forest ι μ
  | nil => nil
  | cons name value children rest => cons name (f value) (map f children) (map f rest)

theorem find_append (name : ι) (forest other : Forest ι ν) :
    (forest.append other).find name = (forest.find name).or (other.find name) := by
  induction forest with
  | nil => rfl
  | cons own value children rest _ ih =>
    rw [append, find, find, ih]
    split <;> rfl

theorem find_without (name other : ι) (forest : Forest ι ν) :
    (forest.without name).find other = if name = other then none else forest.find other := by
  induction forest with
  | nil => simp [without, find]
  | cons own value children rest _ ih =>
    rw [without]
    by_cases hown : own = name
    · rw [if_pos hown, ih, find, hown]
      split <;> rfl
    · rw [if_neg hown, find, ih, find]
      by_cases hother : own = other
      · rw [if_pos hother, if_neg (fun h => hown (hother.trans h.symm)), if_pos hother]
      · rw [if_neg hother, if_neg hother]

theorem find_modify (name other : ι) (change : Forest ι ν → Forest ι ν) (forest : Forest ι ν) :
    (forest.modify name change).find other =
      (forest.find other).map fun found => if name = other then (found.1, change found.2) else found := by
  induction forest with
  | nil => rfl
  | cons own value children rest _ ih =>
    rw [modify, find, find, ih]
    by_cases hother : own = other
    · subst hother
      rw [if_pos rfl, if_pos rfl, Option.map_some]
      by_cases hname : own = name
      · rw [if_pos hname, if_pos hname.symm]
      · rw [if_neg hname, if_neg (Ne.symm hname)]
    · rw [if_neg hother, if_neg hother]

theorem find_map (f : ν → μ) (name : ι) (forest : Forest ι ν) :
    (forest.map f).find name = (forest.find name).map fun found => (f found.1, found.2.map f) := by
  induction forest with
  | nil => rfl
  | cons own value children rest _ ih =>
    rw [map, find, find, ih]
    split <;> rfl

theorem value_map (f : ν → μ) (path : List ι) (forest : Forest ι ν) :
    value path (forest.map f) = (value path forest).map f := by
  induction path generalizing forest with
  | nil => rfl
  | cons name path ih =>
    rw [value_cons, value_cons, find_map]
    cases forest.find name with
    | none => rfl
    | some found =>
      simp only [Option.map_some, Option.bind_some]
      split
      · rfl
      · exact ih found.2

/-- **Erasing takes out what is at a path and below it.** -/
theorem value_erase {path : List ι} (hpath : path ≠ []) (other : List ι) (forest : Forest ι ν) :
    value other (forest.erase path) = if path <+: other then none else value other forest := by
  induction path generalizing other forest with
  | nil => exact absurd rfl hpath
  | cons name path ih =>
    cases other with
    | nil => simp
    | cons own other =>
      simp only [erase, List.cons_prefix_cons, value_cons own other forest]
      by_cases hnil : path = []
      · rw [if_pos hnil, value_cons, find_without, hnil]
        by_cases hname : name = own
        · simp [hname]
        · simp [hname]
      · rw [if_neg hnil, value_cons, find_modify]
        cases forest.find own with
        | none => simp
        | some found =>
          rw [Option.map_some, Option.bind_some, Option.bind_some]
          by_cases hname : name = own
          · rw [if_pos hname]
            simp only [hname, true_and]
            by_cases hother : other = []
            · rw [if_pos hother, if_pos hother, hother, if_neg (by simpa using hnil)]
            · rw [if_neg hother, if_neg hother, ih hnil]
          · rw [if_neg hname]
            simp only [hname, false_and, if_false]

/-- **Attaching adds a tree below the node under a path**, which is there, and has no child of the name. -/
theorem value_attach {name : ι} {own : ν} {children : Forest ι ν} {parent : List ι}
    (hparent : parent = [] ∨ (value parent forest).isSome) (hnone : value (parent ++ [name]) forest = none)
    (path : List ι) : value path (attach (.cons name own children .nil) parent forest) =
      if parent ++ [name] <+: path then value (path.drop parent.length) (.cons name own children .nil)
      else value path forest := by
  induction parent generalizing path forest with
  | nil =>
    rw [List.nil_append, value_singleton, Option.map_eq_none_iff] at hnone
    rw [attach, List.nil_append, List.length_nil, List.drop_zero]
    cases path with
    | nil => simp
    | cons first path =>
      simp only [List.cons_prefix_cons, value_cons, find_append]
      by_cases hname : name = first
      · subst hname
        rw [hnone, Option.none_or, if_pos ⟨rfl, List.nil_prefix⟩]
      · rw [if_neg (fun h => hname h.1), find, if_neg hname, find, Option.or_none]
  | cons above parent ih =>
    rw [attach]
    cases path with
    | nil => simp
    | cons first path =>
      simp only [List.cons_append, List.cons_prefix_cons, value_cons first path, find_modify,
        List.length_cons, List.drop_succ_cons]
      have hsome : (value (above :: parent) forest).isSome := hparent.resolve_left (by simp)
      by_cases hfirst : above = first
      · subst hfirst
        rw [value_cons] at hsome
        rw [List.cons_append, value_cons] at hnone
        cases hfind : forest.find above with
        | none => simp [hfind] at hsome
        | some found =>
          rw [hfind, Option.bind_some] at hsome
          rw [hfind, Option.bind_some, if_neg (by simp)] at hnone
          have hinner : parent = [] ∨ (value parent found.2).isSome := by
            by_cases hnil : parent = []
            · exact .inl hnil
            · rw [if_neg hnil] at hsome
              exact .inr hsome
          rw [Option.map_some, Option.bind_some, Option.bind_some, if_pos rfl]
          simp only [true_and]
          by_cases hpath : path = []
          · rw [if_pos hpath, if_pos hpath, hpath, if_neg (by simp)]
          · rw [if_neg hpath, if_neg hpath, ih hinner hnone]
      · rw [if_neg (fun h => hfirst h.1)]
        cases forest.find first with
        | none => rfl
        | some found => simp [hfirst]

/-! ## 3. Sizes -/

def height : Forest ι ν → Nat
  | nil => 0
  | cons _ _ children rest => max (height children + 1) (height rest)

variable {found : ν × Forest ι ν}

theorem height_of_find {name : ι} (h : forest.find name = some found) : found.2.height + 1 ≤ forest.height := by
  induction forest with
  | nil => simp [find] at h
  | cons own value children rest _ ih =>
    rw [find] at h
    rw [height]
    split at h
    · cases h
      exact Nat.le_max_left _ _
    · exact Nat.le_trans (ih h) (Nat.le_max_right _ _)

theorem height_of_node {path : List ι}
    (h : node path forest = some found) : path.length + found.2.height ≤ forest.height := by
  induction path generalizing forest with
  | nil => simp [node] at h
  | cons name path ih =>
    rw [node, Option.bind_eq_some_iff] at h
    obtain ⟨first, hfirst, h⟩ := h
    have hheight := height_of_find hfirst
    rw [List.length_cons]
    by_cases hnil : path = []
    · rw [if_pos hnil, Option.some.injEq] at h
      subst h
      subst hnil
      rw [List.length_nil]
      omega
    · rw [if_neg hnil] at h
      have hbelow := ih h
      omega

/-- The paths of all nodes. -/
def paths : Forest ι ν → List (List ι)
  | nil => []
  | cons name _ children rest => [name] :: ((paths children).map (name :: ·) ++ paths rest)

theorem mem_paths_of_find {name : ι} (h : forest.find name = some found) :
    [name] ∈ forest.paths ∧ ∀ path ∈ found.2.paths, name :: path ∈ forest.paths := by
  induction forest with
  | nil => simp [find] at h
  | cons own value children rest _ ih =>
    rw [find] at h
    rw [paths]
    split at h
    · next hown =>
      cases h
      subst hown
      exact ⟨List.mem_cons_self, fun path hpath => List.mem_cons_of_mem _
        (List.mem_append_left _ (List.mem_map_of_mem hpath))⟩
    · obtain ⟨hname, hbelow⟩ := ih h
      exact ⟨List.mem_cons_of_mem _ (List.mem_append_right _ hname),
        fun path hpath => List.mem_cons_of_mem _ (List.mem_append_right _ (hbelow path hpath))⟩

theorem mem_paths {path : List ι} (h : (value path forest).isSome) : path ∈ forest.paths := by
  induction path generalizing forest with
  | nil => simp at h
  | cons name path ih =>
    rw [value_cons] at h
    cases hfind : forest.find name with
    | none => simp [hfind] at h
    | some found =>
      rw [hfind, Option.bind_some] at h
      obtain ⟨hname, hbelow⟩ := mem_paths_of_find hfind
      by_cases hnil : path = []
      · rw [hnil]
        exact hname
      · rw [if_neg hnil] at h
        exact hbelow path (ih h)

end Forest

end Ceres.Library
